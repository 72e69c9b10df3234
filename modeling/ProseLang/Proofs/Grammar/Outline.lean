import ProseLang.Proofs.Grammar.Coverage
import ProseLang.Proofs.Program.Leaves

/-!
# Outlines of programs

The outline of a part of a program is the tree of the places that the part and everything below it
take up, with the reserved word that each construct starts with. What a construct holds is either
among its parts, in any order, or in its row: the statements of a body, the operations of a pipe,
the options of a choice, the branches of a conditional, the clauses of a `try` after its body.

`Outline.Nests` says that what a part holds lies within it, its row in order. The arrow after a
session is outside of it, next to it in its row.
-/

namespace ProseLang

/-- The places that a part of a program takes up. -/
inductive Outline
  | node (opener : Option Keyword) (span : Span) (parts row : List Outline)

namespace Outline

/-- The outline of what holds nothing else. -/
def leaf (span : Span) : Outline := node none span [] []

/-- The reserved word that the part starts with, if there is one. -/
def opener : Outline → Option Keyword
  | node word _ _ _ => word

/-- The place of the part itself. -/
def span : Outline → Span
  | node _ place _ _ => place

/-- What the part holds, in any order. -/
def parts : Outline → List Outline
  | node _ _ within _ => within

/-- What the part holds in a row. -/
def row : Outline → List Outline
  | node _ _ _ others => others

section

variable (word : Option Keyword) (place : Span) (within others : List Outline)

/-- The reserved word that a node is made with. -/
@[simp] theorem opener_node : (node word place within others).opener = word := rfl

/-- What a node is made to hold. -/
@[simp] theorem parts_node : (node word place within others).parts = within := rfl

/-- What a node is made to hold in a row. -/
@[simp] theorem row_node : (node word place within others).row = others := rfl

end

mutual

/-- An outline and all outlines below it. -/
def nodes : Outline → List Outline
  | node opener span parts row =>
    node opener span parts row :: (nodesOf parts ++ nodesOf row)

/-- Some outlines and all outlines below them. -/
def nodesOf : List Outline → List Outline
  | [] => []
  | o :: os => o.nodes ++ nodesOf os

end

end Outline

/-! ## The outlines of the parts of a program -/

def Located.outline {α : Type} (x : Located α) : Outline := .leaf x.span

/-- The interpolated names are below a string. -/
def StringLit.outline (s : StringLit) : Outline :=
  .node none s.span (s.interpolations.map Located.outline) []

def Discretion.outline (d : Discretion) : Outline := .leaf d.span

/-- What the variable that a header binds takes up. -/
def AsBinding.outlines (b : AsBinding) : List Outline := [.leaf b.keyword, b.name.outline]

/-- What the condition of a loop takes up. -/
def LoopCondition.outlines (c : LoopCondition) : List Outline :=
  [.leaf c.keyword, c.discretion.outline]

/-- What the settings of a session take up. -/
def SessionOf.outlines {P : Type} (s : SessionOf P) : List Outline :=
  s.name.toList.map Located.outline ++ s.prompt.toList.map StringLit.outline
    ++ s.agent.toList.map Located.outline ++ s.model.toList.map Located.outline
    ++ (s.skills.getD []).map Located.outline ++ s.context.names.map Located.outline
    ++ s.retry.toList.map Located.outline ++ s.backoff.toList.map Located.outline
    ++ s.keys.map Located.outline

/-- What the settings of an agent take up. -/
def AgentOf.outlines {P : Type} (a : AgentOf P) : List Outline :=
  a.name.outline :: a.model.toList.map Located.outline ++ a.prompt.toList.map StringLit.outline
    ++ a.skills.map Located.outline ++ a.keys.map Located.outline

/-- What the header of a parallel block takes up. -/
def ParallelOf.outlines {S : Type} (p : ParallelOf S) : List Outline :=
  p.join.toList.map Located.outline ++ p.onFail.toList.map Located.outline
    ++ p.count.toList.map Located.outline ++ p.keys.map Located.outline

/-- What the header of a loop takes up. -/
def LoopOf.outlines {S : Type} (l : LoopOf S) : List Outline :=
  l.condition.toList.flatMap LoopCondition.outlines ++ l.maxIterations.toList.map Located.outline
    ++ l.index.toList.flatMap AsBinding.outlines ++ l.keys.map Located.outline

/-- The place of the arrow after a session. -/
def Statement.arrow? : Statement → Option Span
  | .action (.session s) => s.arrow
  | _ => none

mutual

/-- The outline of a statement. -/
def Statement.outline : Statement → Outline
  | .comment c => .leaf c.span
  | .importSkill i =>
    .node (some .import_) i.span [i.skill.outline, .leaf i.fromKeyword, i.source.outline] []
  | .agent ⟨name, model, prompt, skills, permissions, properties, keys, span⟩ =>
    .node (some .agent) span
      (AgentOf.outlines ⟨name, model, prompt, skills, permissions, properties, keys, span⟩
        ++ permissionOutlines permissions ++ propertyOutlines properties) []
  | .block ⟨name, params, body, span⟩ =>
    .node (some .block) span (name.outline :: params.map Located.outline) (bodyOutlines body)
  | .binding kind ⟨name, value, span⟩ =>
    .node (some kind.keyword) span [] [name.outline, value.outline]
  | .assignment ⟨name, value, span⟩ => .node none span [] [name.outline, value.outline]
  | .action a => a.outline
  | .parallel ⟨join, onFail, count, keys, body, span⟩ =>
    .node (some .parallel) span (ParallelOf.outlines ⟨join, onFail, count, keys, body, span⟩)
      (bodyOutlines body)
  | .repeated ⟨count, index, body, span⟩ =>
    .node (some .repeat_) span (count.outline :: index.toList.flatMap AsBinding.outlines)
      (bodyOutlines body)
  | .forEach ⟨item, index, collection, isParallel, forKeyword, inKeyword, body, span⟩ =>
    .node (some (if isParallel then .parallel else .for_)) span
      (.leaf forKeyword :: item.outline :: index.toList.map Located.outline
        ++ [.leaf inKeyword, collection.outline]) (bodyOutlines body)
  | .loop ⟨condition, maxIterations, index, keys, body, span⟩ =>
    .node (some .loop) span
      (LoopOf.outlines ⟨condition, maxIterations, index, keys, body, span⟩) (bodyOutlines body)
  | .attempt ⟨body, handler, cleanup, span⟩ =>
    .node (some .try_) span []
      (bodyOutlines body ++ handlerOutlines handler ++ clauseOutlines .finally_ cleanup)
  | .throw t => .node (some .throw) t.span (t.message.toList.map StringLit.outline) []
  | .choice ⟨criteria, options, span⟩ =>
    .node (some .choice) span [criteria.outline] (optionOutlines options)
  | .conditional ⟨branches, otherwise, span⟩ =>
    .node (some .if_) span [] (branchOutlines .if_ branches ++ clauseOutlines .else_ otherwise)

/-- The outlines of the statements of a body, and of the arrows between them. -/
def bodyOutlines : List Statement → List Outline
  | [] => []
  | s :: body => s.outline :: (s.arrow?.toList.map .leaf ++ bodyOutlines body)

/-- The outline of a handler. -/
def handlerOutlines : Option Handler → List Outline
  | none => []
  | some ⟨error, body, span⟩ =>
    [.node (some .catch_) span (error.toList.flatMap AsBinding.outlines) (bodyOutlines body)]

/-- The outline of a clause that has a body only. -/
def clauseOutlines (word : Keyword) : Option Body → List Outline
  | none => []
  | some ⟨body, span⟩ => [.node (some word) span [] (bodyOutlines body)]

/-- The outlines of the options of a choice. -/
def optionOutlines : List ChoiceOption → List Outline
  | [] => []
  | ⟨label, body, span⟩ :: options =>
    .node (some .option) span [label.outline] (bodyOutlines body) :: optionOutlines options

/-- The outlines of conditional branches, the first of which starts with the given word. -/
def branchOutlines (word : Keyword) : List Branch → List Outline
  | [] => []
  | ⟨keyword, condition, body, span⟩ :: branches =>
    .node (some word) span [.leaf keyword, condition.outline] (bodyOutlines body)
      :: branchOutlines .elif branches

/-- The outline of an action. -/
def Action.outline : Action → Outline
  | .session ⟨name, prompt, agent, model, skills, context, retry, backoff, properties, keys, arrow,
      span⟩ =>
    .node (some .session) span
      (SessionOf.outlines ⟨name, prompt, agent, model, skills, context, retry, backoff, properties,
        keys, arrow, span⟩ ++ propertyOutlines properties) []
  | .pipe ⟨input, operations, span⟩ =>
    .node none span [] (input.outline :: operationOutlines operations)
  | .doBlock ⟨body, span⟩ => .node (some .do_) span [] (bodyOutlines body)
  | .invoke ⟨name, args, span⟩ => .node (some .do_) span [] (name.outline :: valueOutlines args)

/-- The outlines of pipe operations. -/
def operationOutlines : List Operation → List Outline
  | [] => []
  | ⟨operator, item, accumulator, body, span⟩ :: operations =>
    .node none span (operator.outline :: item.toList.map Located.outline
      ++ accumulator.toList.map Located.outline) (bodyOutlines body) :: operationOutlines operations

/-- The outline of a value. -/
def Expr.outline : Expr → Outline
  | .action a => a.outline
  | .string s => s.outline
  | .number n => n.outline
  | .ident name => name.outline
  | .array ⟨items, span⟩ => .node none span [] (valueOutlines items)
  | .object ⟨entries, span⟩ => .node none span [] (entryOutlines entries)
  | .discretion d => d.outline

/-- The outlines of values. -/
def valueOutlines : List Expr → List Outline
  | [] => []
  | e :: es => e.outline :: valueOutlines es

/-- The outlines of the keys and the values of an object. -/
def entryOutlines : List Entry → List Outline
  | [] => []
  | ⟨key, some value⟩ :: entries => key.outline :: value.outline :: entryOutlines entries
  | ⟨key, none⟩ :: entries => key.outline :: entryOutlines entries

/-- The outlines of properties. -/
def propertyOutlines : List Property → List Outline
  | [] => []
  | ⟨key, value, span⟩ :: properties =>
    .node none span [] (key.outline :: value.outlines) :: propertyOutlines properties

/-- The outlines of the permissions of an agent. -/
def permissionOutlines : Option (List Property) → List Outline
  | none => []
  | some properties => propertyOutlines properties

/-- What the value of a property takes up. -/
def PropertyValue.outlines : PropertyValue → List Outline
  | .expr e => [e.outline]
  | .context c => c.names.map Located.outline
  | .nested properties => propertyOutlines properties

end

/-- A statement and the arrow after it. -/
def Statement.outlines (s : Statement) : List Outline :=
  s.outline :: s.arrow?.toList.map .leaf

/-- The outlines of the statements of a program. -/
def Program.outlines (p : Program) : List Outline := p.statements.flatMap Statement.outlines

def PropertyOf.outline (p : Property) : Outline :=
  .node none p.span [] (p.key.outline :: p.value.outlines)

def HandlerOf.outline (h : Handler) : Outline :=
  .node (some .catch_) h.span (h.error.toList.flatMap AsBinding.outlines)
    (h.body.flatMap Statement.outlines)

def BodyOf.outline (word : Keyword) (b : Body) : Outline :=
  .node (some word) b.span [] (b.body.flatMap Statement.outlines)

def OptionOf.outline (o : ChoiceOption) : Outline :=
  .node (some .option) o.span [o.label.outline] (o.body.flatMap Statement.outlines)

def BranchOf.outline (word : Keyword) (b : Branch) : Outline :=
  .node (some word) b.span [.leaf b.keyword,
    b.condition.outline] (b.body.flatMap Statement.outlines)

def OperationOf.outline (o : Operation) : Outline :=
  .node none o.span (o.operator.outline :: o.item.toList.map Located.outline
    ++ o.accumulator.toList.map Located.outline) (o.body.flatMap Statement.outlines)

def EntryOf.outlines (e : Entry) : List Outline :=
  e.key.outline :: e.value.toList.map Expr.outline

/-- A body takes up what each statement takes up, with the arrow after it. -/
theorem bodyOutlines_eq (body : List Statement) :
    bodyOutlines body = body.flatMap Statement.outlines := by
  induction body with
  | nil => rfl
  | cons s body ih => exact congrArg (s.outlines ++ ·) ih

private theorem valueOutlines_eq (es : List Expr) : valueOutlines es = es.map Expr.outline := by
  induction es with
  | nil => rfl
  | cons e es ih => exact congrArg (e.outline :: ·) ih

/-- Properties take up what each of them takes up. -/
theorem propertyOutlines_eq (ps : List Property) :
    propertyOutlines ps = ps.map PropertyOf.outline := by
  induction ps with
  | nil => rfl
  | cons p ps ih => exact congrArg (p.outline :: ·) ih

/-- Permissions take up what each of them takes up, if there are any. -/
theorem permissionOutlines_eq (ps : Option (List Property)) :
    permissionOutlines ps = (ps.getD []).map PropertyOf.outline := by
  cases ps with
  | none => rfl
  | some ps => exact propertyOutlines_eq ps

private theorem operationOutlines_eq (os : List Operation) :
    operationOutlines os = os.map OperationOf.outline := by
  induction os with
  | nil => rfl
  | cons o os ih =>
    rw [List.map_cons, OperationOf.outline, ← ih, ← bodyOutlines_eq]
    rfl

/-- Options take up what each of them takes up. -/
theorem optionOutlines_eq (os : List ChoiceOption) :
    optionOutlines os = os.map OptionOf.outline := by
  induction os with
  | nil => rfl
  | cons o os ih =>
    rw [List.map_cons, OptionOf.outline, ← ih, ← bodyOutlines_eq]
    rfl

private theorem branchOutlines_elif (bs : List Branch) :
    branchOutlines .elif bs = bs.map (BranchOf.outline .elif) := by
  induction bs with
  | nil => rfl
  | cons b bs ih =>
    rw [List.map_cons, BranchOf.outline, ← ih, ← bodyOutlines_eq]
    rfl

private theorem branchOutlines_cons (word : Keyword) (b : Branch) (bs : List Branch) :
    branchOutlines word (b :: bs) = b.outline word :: bs.map (BranchOf.outline .elif) := by
  rw [← branchOutlines_elif, BranchOf.outline, ← bodyOutlines_eq]
  rfl

/-- A handler takes up what it does, if there is one. -/
theorem handlerOutlines_eq (h : Option Handler) :
    handlerOutlines h = h.toList.map HandlerOf.outline := by
  cases h with
  | none => rfl
  | some h =>
    rw [Option.toList_some, List.map_singleton, HandlerOf.outline, ← bodyOutlines_eq]
    rfl

/-- A clause takes up what it does, if there is one. -/
theorem clauseOutlines_eq (word : Keyword) (b : Option Body) :
    clauseOutlines word b = b.toList.map (BodyOf.outline word) := by
  cases b with
  | none => rfl
  | some b =>
    rw [Option.toList_some, List.map_singleton, BodyOf.outline, ← bodyOutlines_eq]
    rfl

private theorem entryOutlines_eq (es : List Entry) :
    entryOutlines es = es.flatMap EntryOf.outlines := by
  induction es with
  | nil => rfl
  | cons e es ih =>
    rw [List.flatMap_cons, ← ih]
    rcases e with ⟨key, _ | value⟩ <;> rfl

/-! ## Constructs -/

section Constructs

/-- The definition of an agent holds its settings in any order. -/
theorem outline_agent (a : Agent) :
    (Statement.agent a).outline = .node (some .agent) a.span
      (a.outlines ++ (a.permissions.getD []).map PropertyOf.outline
        ++ a.properties.map PropertyOf.outline) [] := by
  rw [← permissionOutlines_eq, ← propertyOutlines_eq]
  rfl

/-- The definition of a block holds its name and its parameters, and its body in a row. -/
theorem outline_block (b : Block) :
    (Statement.block b).outline = .node (some .block) b.span
      (b.name.outline :: b.params.map Located.outline) (b.body.flatMap Statement.outlines) := by
  rw [← bodyOutlines_eq]
  rfl

/-- A binding has its name before its value. -/
theorem outline_binding (kind : BindingKind) (b : Binding) :
    (Statement.binding kind b).outline
      = .node (some kind.keyword) b.span [] [b.name.outline, b.value.outline] := rfl

/-- An assignment has its name before its value. -/
theorem outline_assignment (a : Binding) :
    (Statement.assignment a).outline = .node none a.span [] [a.name.outline, a.value.outline] := rfl

/-- A parallel block holds its header, and its branches in a row. -/
theorem outline_parallel (p : Parallel) :
    (Statement.parallel p).outline
      = .node (some .parallel) p.span p.outlines (p.body.flatMap Statement.outlines) := by
  rw [← bodyOutlines_eq]
  rfl

/-- A `repeat` holds its header, and its body in a row. -/
theorem outline_repeated (r : Repeat) :
    (Statement.repeated r).outline = .node (some .repeat_) r.span
      (r.count.outline :: r.index.toList.flatMap AsBinding.outlines)
      (r.body.flatMap Statement.outlines) := by
  rw [← bodyOutlines_eq]
  rfl

/-- A `for` holds its header, and its body in a row. -/
theorem outline_forEach (f : ForEach) :
    (Statement.forEach f).outline = .node (some (if f.isParallel then .parallel else .for_)) f.span
      (.leaf f.forKeyword :: f.item.outline :: f.index.toList.map Located.outline
        ++ [.leaf f.inKeyword, f.collection.outline]) (f.body.flatMap Statement.outlines) := by
  rw [← bodyOutlines_eq]
  rfl

/-- A `loop` holds its header, and its body in a row. -/
theorem outline_loop (l : Loop) :
    (Statement.loop l).outline
      = .node (some .loop) l.span l.outlines (l.body.flatMap Statement.outlines) := by
  rw [← bodyOutlines_eq]
  rfl

/-- A `try` has its body, its handler and its last clause in a row. -/
theorem outline_attempt (t : Try) :
    (Statement.attempt t).outline = .node (some .try_) t.span []
      (t.body.flatMap Statement.outlines ++ t.handler.toList.map HandlerOf.outline
        ++ t.cleanup.toList.map (BodyOf.outline .finally_)) := by
  rw [← bodyOutlines_eq, ← handlerOutlines_eq, ← clauseOutlines_eq]
  rfl

/-- A `choice` has its options in a row. -/
theorem outline_choice (c : Choice) :
    (Statement.choice c).outline
      = .node (some .choice) c.span [c.criteria.outline] (c.options.map OptionOf.outline) := by
  rw [← optionOutlines_eq]
  rfl

/-- An `if` has its branches in a row, before what is left. -/
theorem outline_conditional (start : Branch) (more : List Branch) (otherwise : Option Body)
    (span : Span) :
    (Statement.conditional ⟨start :: more, otherwise, span⟩).outline = .node (some .if_) span []
      (start.outline .if_ :: more.map (BranchOf.outline .elif)
        ++ otherwise.toList.map (BodyOf.outline .else_)) := by
  rw [← branchOutlines_cons, ← clauseOutlines_eq]
  rfl

/-- A session holds its settings in any order. -/
theorem outline_session (s : Session) :
    (Action.session s).outline
      = .node (some .session) s.span (s.outlines ++ s.properties.map PropertyOf.outline) [] := by
  rw [← propertyOutlines_eq]
  rfl

/-- A pipe has its input before its operations. -/
theorem outline_pipe (p : Pipe) :
    (Action.pipe p).outline
      = .node none p.span [] (p.input.outline :: p.operations.map OperationOf.outline) := by
  rw [← operationOutlines_eq]
  rfl

/-- A `do` block is a body that starts with its word. -/
theorem outline_doBlock (b : Body) : (Action.doBlock b).outline = b.outline .do_ := by
  rw [BodyOf.outline, ← bodyOutlines_eq]
  rfl

/-- A call has its name before its arguments. -/
theorem outline_invoke (i : Invocation) :
    (Action.invoke i).outline
      = .node (some .do_) i.span [] (i.name.outline :: i.args.map Expr.outline) := by
  rw [← valueOutlines_eq]
  rfl

/-- An array has its items in a row. -/
theorem outline_array (a : ArrayLit) :
    (Expr.array a).outline = .node none a.span [] (a.items.map Expr.outline) := by
  rw [← valueOutlines_eq]
  rfl

/-- An object has its entries in a row. -/
theorem outline_object (o : ObjectLit) :
    (Expr.object o).outline = .node none o.span [] (o.entries.flatMap EntryOf.outlines) := by
  rw [← entryOutlines_eq]
  rfl

/-- A value takes up itself. -/
theorem outlines_expr (e : Expr) : (PropertyValue.expr e).outlines = [e.outline] := rfl

/-- A group of properties takes up what each of them takes up. -/
theorem outlines_nested (ps : List Property) :
    (PropertyValue.nested ps).outlines = ps.map PropertyOf.outline := propertyOutlines_eq ps

/-- A statement that is an action takes up the action. -/
theorem outline_action (a : Action) : (Statement.action a).outline = a.outline := rfl

/-- The outline of an action is where the action is. -/
theorem Action.outline_span (a : Action) : a.outline.span = a.span := by
  rcases a with ⟨⟨⟩⟩ | ⟨⟨⟩⟩ | ⟨⟨⟩⟩ | ⟨⟨⟩⟩ <;> rfl

/-- The outline of a value is where the value is. -/
theorem Expr.outline_span (e : Expr) : e.outline.span = e.span := by
  rcases e with a | s | n | x | ⟨⟨⟩⟩ | ⟨⟨⟩⟩ | d <;> first | rfl | exact a.outline_span

end Constructs

/-! ## Outlines that are nested and in order -/

namespace Outline

/-- Whether what a part holds lies within it, and what it holds in a row stands in the order of the
row. -/
structure Nests (o : Outline) : Prop where
  room : o.span.start.offset < o.span.stop.offset
  within : ∀ p ∈ o.parts ++ o.row, o.span.encloses p.span = true
  ordered : o.row.Pairwise fun a b ↦ a.span.stop.offset ≤ b.span.start.offset

variable {os : List Outline}

/-- The outlines below some are those below each of them. -/
theorem mem_nodesOf {p : Outline} : p ∈ nodesOf os ↔ ∃ o ∈ os, p ∈ o.nodes := by
  induction os with
  | nil => simp [nodesOf]
  | cons o os ih => simp [nodesOf, ih]

/-- An outline below another is the other one or below what it holds. -/
theorem mem_nodes {o p : Outline} : p ∈ o.nodes ↔ p = o ∨ ∃ q ∈ o.parts ++ o.row, p ∈ q.nodes := by
  cases o
  simp only [nodes, List.mem_cons, List.mem_append, mem_nodesOf, parts_node, row_node]
  grind

/-- An outline is below itself. -/
theorem self_mem_nodes (o : Outline) : o ∈ o.nodes := mem_nodes.2 (.inl rfl)

end Outline

end ProseLang
