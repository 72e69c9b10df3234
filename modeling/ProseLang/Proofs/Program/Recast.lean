import ProseLang.Grammar.Statement

/-!
# Programs with other places and comments

A `Recast` says what becomes of the places in a program and of its comments: the place of a token,
the place of anything else, and a comment on a line of its own, which may be left out. `recast` does
so throughout a program, and to the tokens that it is read from. Two programs are the same up to
places if they agree once every place is forgotten (`unplaced`); `uncommented` leaves out every
comment.
-/

namespace ProseLang

/-- What becomes of the places and the comments of a program. -/
structure TreeRecast where
  /-- The place of a token, or of a setting, which starts with its key. -/
  place : Span → Span
  /-- The place of a construct, or of a part of a token. -/
  extent : Span → Span
  /-- A comment on a line of its own. -/
  comment : Comment → Option Comment

/-- What becomes of the places and the comments of a program and of its tokens. -/
structure Recast extends TreeRecast where
  /-- What the token of a comment says. -/
  note : String → String

namespace TreeRecast

variable (q r : TreeRecast)

/-- One change after another. -/
def after : TreeRecast where
  place s := q.place (r.place s)
  extent s := q.extent (r.extent s)
  comment c := (r.comment c).bind q.comment

/-- A place that is changed twice. -/
@[simp] theorem place_after (s : Span) : (q.after r).place s = q.place (r.place s) := rfl

/-- The place of a part that is changed twice. -/
@[simp] theorem extent_after (s : Span) : (q.after r).extent s = q.extent (r.extent s) := rfl

/-- A comment that is changed twice, if it is left at all. -/
@[simp] theorem comment_after (c : Comment) :
    (q.after r).comment c = (r.comment c).bind q.comment := rfl

/-- Leaves out every comment. -/
def uncommenting : TreeRecast := ⟨id, id, fun _ ↦ none⟩

end TreeRecast

namespace Recast

/-- Changes a program and leaves what the tokens of comments say. -/
def ofTree (r : TreeRecast) : Recast := ⟨r, id⟩

instance : Coe TreeRecast Recast := ⟨ofTree⟩

/-- One change after another. -/
def after (q r : Recast) : Recast := ⟨q.toTreeRecast.after r.toTreeRecast, q.note ∘ r.note⟩

/-- Changes of trees one after the other. -/
@[simp] theorem ofTree_after (q r : TreeRecast) :
    (ofTree q).after (ofTree r) = ofTree (q.after r) := rfl

/-- What becomes of trees by a change of trees. -/
@[simp] theorem toTreeRecast_ofTree (r : TreeRecast) : (ofTree r).toTreeRecast = r := rfl

/-- What becomes of trees by changes one after the other. -/
@[simp] theorem toTreeRecast_after (q r : Recast) :
    (q.after r).toTreeRecast = q.toTreeRecast.after r.toTreeRecast := rfl

/-- A text of a comment that is changed twice. -/
@[simp] theorem note_after (q r : Recast) (text : String) :
    (q.after r).note text = q.note (r.note text) := rfl

/-- Forgets every place. -/
def bare : Recast where
  place _ := .nowhere
  extent _ := .nowhere
  comment c := some ⟨c.text, .nowhere⟩
  note := id

/-- Bare places are nowhere. -/
@[simp] theorem place_bare (s : Span) : bare.place s = .nowhere := rfl

/-- Bare parts are nowhere. -/
@[simp] theorem extent_bare (s : Span) : bare.extent s = .nowhere := rfl

/-- Bare comments keep their text. -/
@[simp] theorem comment_bare (c : Comment) : bare.comment c = some ⟨c.text, .nowhere⟩ := rfl

/-- Bare texts of comments stay. -/
@[simp] theorem note_bare (text : String) : bare.note text = text := rfl

/-- Leaves out every comment. -/
def uncommenting : Recast := .ofTree .uncommenting

end Recast

/-- A type whose values hold places or comments. -/
class Recastable (α : Type) where
  /-- The same value with its places and comments changed. -/
  recast : Recast → α → α
  recast_recast (q r : Recast) (x : α) : recast q (recast r x) = recast (q.after r) x

export Recastable (recast recast_recast)

/-- A type whose lists are changed part by part; a part may be left out. -/
class RecastsParts (α : Type) [Recastable (List α)] : Prop where
  recast_append (r : Recast) (xs ys : List α) : recast r (xs ++ ys) = recast r xs ++ recast r ys

export RecastsParts (recast_append)

attribute [simp] recast_recast recast_append

/-- The same value with every place forgotten. -/
abbrev unplaced {α : Type} [Recastable α] (x : α) : α := recast .bare x

/-- The same value without its comments. -/
def uncommented {α : Type} [Recastable α] (x : α) : α := recast .uncommenting x

section Containers

variable {α β : Type} [Recastable α] [Recastable β] (q r : Recast)

instance : Recastable Unit := ⟨fun _ ↦ id, fun _ _ _ ↦ rfl⟩

instance : Recastable Bool := ⟨fun _ ↦ id, fun _ _ _ ↦ rfl⟩

instance : Recastable (Option α) where
  recast r := Option.map (recast r)
  recast_recast q r x := by cases x <;> simp

instance : Recastable (List α) where
  recast r := List.map (recast r)
  recast_recast q r xs := by simp

instance : Recastable (α × β) where
  recast r := Prod.map (recast r) (recast r)
  recast_recast q r x := by simp [Prod.map]

/-- A truth value has no place. -/
@[simp] theorem recast_bool (b : Bool) : recast r b = b := rfl

/-- What is not there is not there. -/
@[simp] theorem recast_none : recast r (none : Option α) = none := rfl

/-- What is there is recast. -/
@[simp] theorem recast_some (x : α) : recast r (some x) = some (recast r x) := rfl

/-- No elements are no elements. -/
@[simp] theorem recast_nil : recast r ([] : List α) = [] := rfl

/-- A list is recast element by element. -/
@[simp] theorem recast_cons (x : α) (xs : List α) :
    recast r (x :: xs) = recast r x :: recast r xs := rfl

instance : RecastsParts α := ⟨fun _ _ _ ↦ List.map_append⟩

/-- A pair is recast in both parts. -/
@[simp] theorem recast_mk (x : α) (y : β) : recast r (x, y) = (recast r x, recast r y) := rfl

/-- A list keeps its elements, recast. -/
@[simp] theorem isEmpty_recast (xs : List α) : (recast r xs).isEmpty = xs.isEmpty := by
  cases xs <;> rfl

/-- What is not there is not there when recast. -/
@[simp] theorem isNone_recast (x : Option α) : (recast r x).isNone = x.isNone := by
  cases x <;> rfl

/-- What is there is there when recast. -/
@[simp] theorem isSome_recast (x : Option α) : (recast r x).isSome = x.isSome := by
  cases x <;> rfl

/-- A list keeps its length. -/
@[simp] theorem length_recast (xs : List α) : (recast r xs).length = xs.length :=
  List.length_map _

end Containers

/-! ## Tokens and errors -/

instance : Recastable Span := ⟨fun r ↦ r.place, fun _ _ _ ↦ rfl⟩

instance : Recastable StringLiteral where
  recast r l :=
    { l with segments := l.segments.map (Segment.mapSpan r.extent)
             escapes := l.escapes.map fun e ↦ { e with span := r.extent e.span } }
  recast_recast q r l := by
    have segment (s : Segment) :
        (s.mapSpan r.extent).mapSpan q.extent = s.mapSpan (q.after r).extent := by cases s <;> rfl
    simp [Function.comp_def, segment]

instance : Recastable TokenKind where
  recast r
    | .string literal => .string (recast r literal)
    | .comment text => .comment (r.note text)
    | kind => kind
  recast_recast q r kind := by cases kind <;> simp

instance : Recastable Token where
  recast r t := ⟨recast r t.kind, recast r t.span⟩
  recast_recast q r t := by simp

/-- A token is recast in its kind and its place. -/
@[simp] theorem recast_token (r : Recast) (k : TokenKind) (span : Span) :
    recast r (⟨k, span⟩ : Token) = ⟨recast r k, r.place span⟩ := rfl

/-- The kind of a token that is recast. -/
@[simp] theorem kind_recast (r : Recast) (t : Token) : (recast r t).kind = recast r t.kind := rfl

/-- The place of a token that is recast. -/
@[simp] theorem span_recast (r : Recast) (t : Token) : (recast r t).span = r.place t.span := rfl

/-- Messages call a token the same wherever it stands. -/
@[simp] theorem describe_recast (r : Recast) (k : TokenKind) :
    (recast r k).describe = k.describe := by
  cases k <;> rfl

/-- Comments stay comments. -/
@[simp] theorem isComment_recast (r : Recast) (k : TokenKind) :
    (recast r k).isComment = k.isComment := by
  cases k <;> rfl

/-- Layout stays layout. -/
@[simp] theorem isLayout_recast (r : Recast) (k : TokenKind) :
    (recast r k).isLayout = k.isLayout := by
  cases k <;> rfl

/-- A kind of token that is no string has no place. -/
theorem bare_eq_iff {k kind : TokenKind} (h : ∀ l, kind ≠ .string l) :
    recast .bare k = kind ↔ k = kind := by
  cases k <;> cases kind <;> simp_all [recast, Recast.bare]

instance : Recastable ParseError where
  recast r e := { e with span := recast r e.span }
  recast_recast q r e := by simp

/-- An error is recast in its place only. -/
@[simp] theorem recast_parseError (r : Recast) (fault : GrammarFault) (span : Span) :
    recast r (⟨fault, span⟩ : ParseError) = ⟨fault, r.place span⟩ := rfl

instance {α : Type} [Recastable α] : Recastable (Except ParseError α) where
  recast r
    | .ok x => .ok (recast r x)
    | .error e => .error (recast r e)
  recast_recast q r x := by cases x <;> simp

/-- A value that is given is recast. -/
@[simp] theorem recast_ok {α : Type} [Recastable α] (r : Recast) (x : α) :
    recast r (.ok x : Except ParseError α) = .ok (recast r x) := rfl

/-- An error that is given is recast. -/
@[simp] theorem recast_error {α : Type} [Recastable α] (r : Recast) (e : ParseError) :
    recast r (.error e : Except ParseError α) = .error (recast r e) := rfl

instance : Recastable RoundEnd where
  recast r
    | .fail e => .fail (recast r e)
    | .again => .again
    | .stop => .stop
  recast_recast q r x := by cases x <;> simp

/-! ## Leaves -/

instance {α : Type} : Recastable (Located α) where
  recast r x := { x with span := recast r x.span }
  recast_recast q r x := by simp

/-- What stands somewhere is recast in its place only. -/
@[simp] theorem recast_located {α : Type} (r : Recast) (x : α) (span : Span) :
    recast r (⟨x, span⟩ : Located α) = ⟨x, r.place span⟩ := rfl

/-- What stands somewhere keeps its value. -/
@[simp] theorem val_recast {α : Type} (r : Recast) (x : Located α) : (recast r x).val = x.val := rfl

/-- A comment that is left out is no longer on the list. -/
instance : Recastable (List Comment) where
  recast r cs := cs.filterMap r.comment
  recast_recast q r cs := by simp [List.filterMap_filterMap, TreeRecast.after]

instance : RecastsParts Comment := ⟨fun _ _ _ ↦ List.filterMap_append⟩

instance : Recastable StringLit where
  recast r s :=
    { s with interpolations := s.interpolations.map fun x ↦ { x with span := r.extent x.span }
             span := recast r s.span }
  recast_recast q r s := by simp [Function.comp_def]

instance : Recastable Discretion where
  recast r d := { d with span := recast r d.span }
  recast_recast q r d := by simp

instance : Recastable Context where
  recast r
    | .single name => .single (recast r name)
    | .list names => .list (recast r names)
    | .object names => .object (recast r names)
    | .implicit => .implicit
    | .empty => .empty
  recast_recast q r c := by cases c <;> simp

instance : Recastable AsBinding where
  recast r b := ⟨recast r b.keyword, recast r b.name⟩
  recast_recast q r b := by simp

instance : Recastable LoopCondition where
  recast r c := ⟨c.kind, recast r c.keyword, recast r c.discretion⟩
  recast_recast q r c := by simp

instance : Recastable Import where
  recast r i := ⟨recast r i.skill, recast r i.source, recast r i.fromKeyword, r.extent i.span⟩
  recast_recast q r i := by simp

instance : Recastable Throw where
  recast r t := ⟨recast r t.message, r.extent t.span⟩
  recast_recast q r t := by simp

instance : Recastable ModifierValue where
  recast r
    | .string s => .string (recast r s)
    | .number digits => .number (recast r digits)
  recast_recast q r v := by cases v <;> simp

instance : Recastable Modifier where
  recast r m := ⟨recast r m.key, recast r m.value, recast r m.span⟩
  recast_recast q r m := by simp

/-- The string that a literal stands for. -/
@[simp] theorem recast_ofLiteral (r : Recast) (l : StringLiteral) (span : Span) :
    recast r (StringLit.ofLiteral l span) = .ofLiteral (recast r l) (r.place span) := by
  have holes : (recast r l).holes = l.holes.map fun h ↦ (h.1, r.extent h.2) := by
    simp only [StringLiteral.holes, recast, List.filterMap_map, List.map_filterMap]
    congr 1
    funext s
    cases s <;> rfl
  simp only [StringLit.ofLiteral, holes, List.map_map]
  simp [recast, Function.comp_def]

/-! ## Trees -/

mutual

/-- A statement with its places and comments changed; none for a comment that is left out. -/
def Statement.recasts (r : TreeRecast) : Statement → List Statement
  | .comment c => (r.comment c).toList.map .comment
  | .importSkill i => [.importSkill (recast r i)]
  | .agent ⟨name, model, prompt, skills, permissions, properties, keys, span⟩ =>
    [.agent ⟨recast r name, recast r model, recast r prompt, recast r skills,
      permissionRecasts r permissions, propertyRecasts r properties, recast r keys, r.extent span⟩]
  | .block ⟨name, params, body, span⟩ =>
    [.block ⟨recast r name, recast r params, bodyRecasts r body, r.extent span⟩]
  | .binding kind ⟨name, value, span⟩ =>
    [.binding kind ⟨recast r name, value.recasts r, r.extent span⟩]
  | .assignment ⟨name, value, span⟩ => [.assignment ⟨recast r name, value.recasts r, r.extent span⟩]
  | .action a => [.action (a.recasts r)]
  | .parallel ⟨join, onFail, count, keys, body, span⟩ =>
    [.parallel ⟨recast r join, recast r onFail, recast r count, recast r keys, bodyRecasts r body,
      r.extent span⟩]
  | .repeated ⟨count, index, body, span⟩ =>
    [.repeated ⟨recast r count, recast r index, bodyRecasts r body, r.extent span⟩]
  | .forEach ⟨item, index, collection, isParallel, forKeyword, inKeyword, body, span⟩ =>
    [.forEach ⟨recast r item, recast r index, collection.recasts r, isParallel, recast r forKeyword,
      recast r inKeyword, bodyRecasts r body, r.extent span⟩]
  | .loop ⟨condition, maxIterations, index, keys, body, span⟩ =>
    [.loop ⟨recast r condition, recast r maxIterations, recast r index, recast r keys,
      bodyRecasts r body, r.extent span⟩]
  | .attempt ⟨body, handler, cleanup, span⟩ =>
    [.attempt ⟨bodyRecasts r body, handlerRecasts r handler, clauseRecasts r cleanup,
      r.extent span⟩]
  | .throw t => [.throw (recast r t)]
  | .choice ⟨criteria, options, span⟩ =>
    [.choice ⟨recast r criteria, optionRecasts r options, r.extent span⟩]
  | .conditional ⟨branches, otherwise, span⟩ =>
    [.conditional ⟨branchRecasts r branches, clauseRecasts r otherwise, r.extent span⟩]

/-- Statements with their places and comments changed. -/
def bodyRecasts (r : TreeRecast) : List Statement → List Statement
  | [] => []
  | s :: body => s.recasts r ++ bodyRecasts r body

/-- A handler with its places and comments changed. -/
def handlerRecasts (r : TreeRecast) : Option Handler → Option Handler
  | none => none
  | some ⟨error, body, span⟩ => some ⟨recast r error, bodyRecasts r body, r.extent span⟩

/-- A clause that has a body only with its places and comments changed. -/
def clauseRecasts (r : TreeRecast) : Option Body → Option Body
  | none => none
  | some ⟨body, span⟩ => some ⟨bodyRecasts r body, r.extent span⟩

/-- The options of a choice with their places and comments changed. -/
def optionRecasts (r : TreeRecast) : List ChoiceOption → List ChoiceOption
  | [] => []
  | ⟨label, body, span⟩ :: options =>
    ⟨recast r label, bodyRecasts r body, r.extent span⟩ :: optionRecasts r options

/-- Conditional branches with their places and comments changed. -/
def branchRecasts (r : TreeRecast) : List Branch → List Branch
  | [] => []
  | ⟨keyword, condition, body, span⟩ :: branches =>
    ⟨recast r keyword, recast r condition, bodyRecasts r body, r.extent span⟩
      :: branchRecasts r branches

/-- An action with its places and comments changed. -/
def Action.recasts (r : TreeRecast) : Action → Action
  | .session ⟨name, prompt, agent, model, skills, context, retry, backoff, properties, keys,
      arrow, span⟩ =>
    .session ⟨recast r name, recast r prompt, recast r agent, recast r model, recast r skills,
      recast r context, recast r retry, recast r backoff, propertyRecasts r properties,
      recast r keys, recast r arrow, r.extent span⟩
  | .pipe ⟨input, operations, span⟩ =>
    .pipe ⟨input.recasts r, operationRecasts r operations, r.extent span⟩
  | .doBlock ⟨body, span⟩ => .doBlock ⟨bodyRecasts r body, r.extent span⟩
  | .invoke ⟨name, args, span⟩ => .invoke ⟨recast r name, valueRecasts r args, r.extent span⟩

/-- Pipe operations with their places and comments changed. -/
def operationRecasts (r : TreeRecast) : List Operation → List Operation
  | [] => []
  | ⟨operator, item, accumulator, body, span⟩ :: operations =>
    ⟨recast r operator, recast r item, recast r accumulator, bodyRecasts r body, r.extent span⟩
      :: operationRecasts r operations

/-- A value with its places and comments changed. -/
def Expr.recasts (r : TreeRecast) : Expr → Expr
  | .action a => .action (a.recasts r)
  | .string s => .string (recast r s)
  | .number n => .number (recast r n)
  | .ident name => .ident (recast r name)
  | .array ⟨items, span⟩ => .array ⟨valueRecasts r items, r.extent span⟩
  | .object ⟨entries, span⟩ => .object ⟨entryRecasts r entries, r.extent span⟩
  | .discretion d => .discretion (recast r d)

/-- Values with their places and comments changed. -/
def valueRecasts (r : TreeRecast) : List Expr → List Expr
  | [] => []
  | e :: es => e.recasts r :: valueRecasts r es

/-- The entries of an object with their places and comments changed. -/
def entryRecasts (r : TreeRecast) : List Entry → List Entry
  | [] => []
  | ⟨key, some value⟩ :: es => ⟨recast r key, some (value.recasts r)⟩ :: entryRecasts r es
  | ⟨key, none⟩ :: es => ⟨recast r key, none⟩ :: entryRecasts r es

/-- Properties with their places and comments changed. -/
def propertyRecasts (r : TreeRecast) : List Property → List Property
  | [] => []
  | ⟨key, value, span⟩ :: properties =>
    ⟨recast r key, value.recasts r, recast r span⟩ :: propertyRecasts r properties

/-- The permissions of an agent with their places and comments changed. -/
def permissionRecasts (r : TreeRecast) : Option (List Property) → Option (List Property)
  | none => none
  | some properties => some (propertyRecasts r properties)

/-- The value of a property with its places and comments changed. -/
def PropertyValue.recasts (r : TreeRecast) : PropertyValue → PropertyValue
  | .expr e => .expr (e.recasts r)
  | .context c => .context (recast r c)
  | .nested properties => .nested (propertyRecasts r properties)

end

attribute [local simp] Statement.recasts Action.recasts Expr.recasts PropertyValue.recasts

/-- Statements one after the other, without the comments that are left out. -/
@[simp] theorem bodyRecasts_append (r : TreeRecast) (a b : List Statement) :
    bodyRecasts r (a ++ b) = bodyRecasts r a ++ bodyRecasts r b := by
  induction a with
  | nil => simp [bodyRecasts]
  | cons s a ih => simp [bodyRecasts, ih]

mutual

private theorem Statement.recasts_recasts (q r : TreeRecast) (s : Statement) :
    bodyRecasts q (s.recasts r) = s.recasts (q.after r) := by
  cases s with
  | comment c =>
    cases h : r.comment c <;> simp [bodyRecasts, h]
  | importSkill i => simp [bodyRecasts]
  | agent a =>
    obtain ⟨name, model, prompt, skills, permissions, properties, keys, span⟩ := a
    simp [bodyRecasts, permissionRecasts_recasts q r permissions,
      propertyRecasts_recasts q r properties]
  | block b => simp [bodyRecasts, bodyRecasts_recasts q r b.body]
  | binding kind b =>
    simp [bodyRecasts, Expr.recasts_recasts q r b.value]
  | assignment b =>
    simp [bodyRecasts, Expr.recasts_recasts q r b.value]
  | action a => simp [bodyRecasts, Action.recasts_recasts q r a]
  | parallel p => simp [bodyRecasts, bodyRecasts_recasts q r p.body]
  | repeated p => simp [bodyRecasts, bodyRecasts_recasts q r p.body]
  | forEach f =>
    simp [bodyRecasts, bodyRecasts_recasts q r f.body,
      Expr.recasts_recasts q r f.collection]
  | loop l => simp [bodyRecasts, bodyRecasts_recasts q r l.body]
  | attempt t =>
    simp [bodyRecasts, bodyRecasts_recasts q r t.body,
      handlerRecasts_recasts q r t.handler, clauseRecasts_recasts q r t.cleanup]
  | throw t => simp [bodyRecasts]
  | choice c => simp [bodyRecasts, optionRecasts_recasts q r c.options]
  | conditional c =>
    simp [bodyRecasts, branchRecasts_recasts q r c.branches,
      clauseRecasts_recasts q r c.otherwise]

private theorem bodyRecasts_recasts (q r : TreeRecast) (body : List Statement) :
    bodyRecasts q (bodyRecasts r body) = bodyRecasts (q.after r) body := by
  cases body with
  | nil => rfl
  | cons s body =>
    simp [bodyRecasts, Statement.recasts_recasts q r s, bodyRecasts_recasts q r body]

private theorem handlerRecasts_recasts (q r : TreeRecast) (h : Option Handler) :
    handlerRecasts q (handlerRecasts r h) = handlerRecasts (q.after r) h := by
  cases h with
  | none => rfl
  | some h => simp [handlerRecasts, bodyRecasts_recasts q r h.body]

private theorem clauseRecasts_recasts (q r : TreeRecast) (b : Option Body) :
    clauseRecasts q (clauseRecasts r b) = clauseRecasts (q.after r) b := by
  cases b with
  | none => rfl
  | some b => simp [clauseRecasts, bodyRecasts_recasts q r b.body]

private theorem optionRecasts_recasts (q r : TreeRecast) (os : List ChoiceOption) :
    optionRecasts q (optionRecasts r os) = optionRecasts (q.after r) os := by
  cases os with
  | nil => rfl
  | cons o os =>
    simp [optionRecasts, bodyRecasts_recasts q r o.body, optionRecasts_recasts q r os]

private theorem branchRecasts_recasts (q r : TreeRecast) (bs : List Branch) :
    branchRecasts q (branchRecasts r bs) = branchRecasts (q.after r) bs := by
  cases bs with
  | nil => rfl
  | cons b bs =>
    simp [branchRecasts, bodyRecasts_recasts q r b.body, branchRecasts_recasts q r bs]

private theorem Action.recasts_recasts (q r : TreeRecast) (a : Action) :
    (a.recasts r).recasts q = a.recasts (q.after r) := by
  cases a with
  | session s => simp [propertyRecasts_recasts q r s.properties]
  | pipe p =>
    simp [Expr.recasts_recasts q r p.input, operationRecasts_recasts q r p.operations]
  | doBlock b => simp [bodyRecasts_recasts q r b.body]
  | invoke i => simp [valueRecasts_recasts q r i.args]

private theorem operationRecasts_recasts (q r : TreeRecast) (os : List Operation) :
    operationRecasts q (operationRecasts r os) = operationRecasts (q.after r) os := by
  cases os with
  | nil => rfl
  | cons o os =>
    simp [operationRecasts, bodyRecasts_recasts q r o.body, operationRecasts_recasts q r os]

private theorem Expr.recasts_recasts (q r : TreeRecast) (e : Expr) :
    (e.recasts r).recasts q = e.recasts (q.after r) := by
  cases e with
  | action a => simp [Action.recasts_recasts q r a]
  | array a => simp [valueRecasts_recasts q r a.items]
  | object o => simp [entryRecasts_recasts q r o.entries]
  | _ => simp

private theorem valueRecasts_recasts (q r : TreeRecast) (es : List Expr) :
    valueRecasts q (valueRecasts r es) = valueRecasts (q.after r) es := by
  cases es with
  | nil => rfl
  | cons e es =>
    simp [valueRecasts, Expr.recasts_recasts q r e, valueRecasts_recasts q r es]

private theorem entryRecasts_recasts (q r : TreeRecast) (es : List Entry) :
    entryRecasts q (entryRecasts r es) = entryRecasts (q.after r) es := by
  match es with
  | [] => rfl
  | ⟨key, some value⟩ :: es =>
    simp [entryRecasts, Expr.recasts_recasts q r value, entryRecasts_recasts q r es]
  | ⟨key, none⟩ :: es => simp [entryRecasts, entryRecasts_recasts q r es]

private theorem propertyRecasts_recasts (q r : TreeRecast) (ps : List Property) :
    propertyRecasts q (propertyRecasts r ps) = propertyRecasts (q.after r) ps := by
  cases ps with
  | nil => rfl
  | cons p ps =>
    simp [propertyRecasts, PropertyValue.recasts_recasts q r p.value,
      propertyRecasts_recasts q r ps]

private theorem permissionRecasts_recasts (q r : TreeRecast) (ps : Option (List Property)) :
    permissionRecasts q (permissionRecasts r ps) = permissionRecasts (q.after r) ps := by
  cases ps with
  | none => rfl
  | some ps => simp [permissionRecasts, propertyRecasts_recasts q r ps]

private theorem PropertyValue.recasts_recasts (q r : TreeRecast) (v : PropertyValue) :
    (v.recasts r).recasts q = v.recasts (q.after r) := by
  cases v with
  | expr e => simp [Expr.recasts_recasts q r e]
  | context c => simp
  | nested ps => simp [propertyRecasts_recasts q r ps]

end

/-- A comment that is left out leaves no statement. -/
instance : Recastable (List Statement) where
  recast r := bodyRecasts r.toTreeRecast
  recast_recast q r := bodyRecasts_recasts q.toTreeRecast r.toTreeRecast

instance : RecastsParts Statement := ⟨fun r ↦ bodyRecasts_append r.toTreeRecast⟩

instance : Recastable Action where
  recast r a := a.recasts r.toTreeRecast
  recast_recast q r := Action.recasts_recasts q.toTreeRecast r.toTreeRecast

instance : Recastable Expr where
  recast r e := e.recasts r.toTreeRecast
  recast_recast q r := Expr.recasts_recasts q.toTreeRecast r.toTreeRecast

instance : Recastable PropertyValue where
  recast r v := v.recasts r.toTreeRecast
  recast_recast q r := PropertyValue.recasts_recasts q.toTreeRecast r.toTreeRecast

instance : Recastable Property where
  recast r p := ⟨recast r p.key, recast r p.value, recast r p.span⟩
  recast_recast q r p := by simp

instance : Recastable Agent where
  recast r a :=
    ⟨recast r a.name, recast r a.model, recast r a.prompt, recast r a.skills,
      recast r a.permissions, recast r a.properties, recast r a.keys, r.extent a.span⟩
  recast_recast q r a := by simp

instance : Recastable Block where
  recast r b := ⟨recast r b.name, recast r b.params, recast r b.body, r.extent b.span⟩
  recast_recast q r b := by simp

instance : Recastable Session where
  recast r s :=
    ⟨recast r s.name, recast r s.prompt, recast r s.agent, recast r s.model, recast r s.skills,
      recast r s.context, recast r s.retry, recast r s.backoff, recast r s.properties,
      recast r s.keys, recast r s.arrow, r.extent s.span⟩
  recast_recast q r s := by simp

instance : Recastable Binding where
  recast r b := ⟨recast r b.name, recast r b.value, r.extent b.span⟩
  recast_recast q r b := by simp

instance : Recastable Body where
  recast r b := ⟨recast r b.body, r.extent b.span⟩
  recast_recast q r b := by simp

instance : Recastable Parallel where
  recast r p :=
    ⟨recast r p.join, recast r p.onFail, recast r p.count, recast r p.keys, recast r p.body,
      r.extent p.span⟩
  recast_recast q r p := by simp

instance : Recastable Repeat where
  recast r p := ⟨recast r p.count, recast r p.index, recast r p.body, r.extent p.span⟩
  recast_recast q r p := by simp

instance : Recastable ForEach where
  recast r f :=
    ⟨recast r f.item, recast r f.index, recast r f.collection, f.isParallel,
      recast r f.forKeyword, recast r f.inKeyword, recast r f.body, r.extent f.span⟩
  recast_recast q r f := by simp

instance : Recastable Loop where
  recast r l :=
    ⟨recast r l.condition, recast r l.maxIterations, recast r l.index, recast r l.keys,
      recast r l.body, r.extent l.span⟩
  recast_recast q r l := by simp

instance : Recastable Handler where
  recast r h := ⟨recast r h.error, recast r h.body, r.extent h.span⟩
  recast_recast q r h := by simp

instance : Recastable Try where
  recast r t := ⟨recast r t.body, recast r t.handler, recast r t.cleanup, r.extent t.span⟩
  recast_recast q r t := by simp

instance : Recastable ChoiceOption where
  recast r o := ⟨recast r o.label, recast r o.body, r.extent o.span⟩
  recast_recast q r o := by simp

instance : Recastable Choice where
  recast r c := ⟨recast r c.criteria, recast r c.options, r.extent c.span⟩
  recast_recast q r c := by simp

instance : Recastable Branch where
  recast r b := ⟨recast r b.keyword, recast r b.condition, recast r b.body, r.extent b.span⟩
  recast_recast q r b := by simp

instance : Recastable Conditional where
  recast r c := ⟨recast r c.branches, recast r c.otherwise, r.extent c.span⟩
  recast_recast q r c := by simp

instance : Recastable Operation where
  recast r o :=
    ⟨recast r o.operator, recast r o.item, recast r o.accumulator, recast r o.body,
      r.extent o.span⟩
  recast_recast q r o := by simp

instance : Recastable Pipe where
  recast r p := ⟨recast r p.input, recast r p.operations, r.extent p.span⟩
  recast_recast q r p := by simp

instance : Recastable Invocation where
  recast r i := ⟨recast r i.name, recast r i.args, r.extent i.span⟩
  recast_recast q r i := by simp

instance : Recastable ArrayLit where
  recast r a := ⟨recast r a.items, r.extent a.span⟩
  recast_recast q r a := by simp

instance : Recastable Entry where
  recast r e := ⟨recast r e.key, recast r e.value⟩
  recast_recast q r e := by simp

instance : Recastable ObjectLit where
  recast r o := ⟨recast r o.entries, r.extent o.span⟩
  recast_recast q r o := by simp

/-- The span of a program is made from the ends of the file. -/
instance : Recastable Program where
  recast r p := ⟨recast r p.statements, recast r p.comments, r.extent p.span⟩
  recast_recast q r p := by simp

private theorem valueRecasts_eq (r : Recast) (es : List Expr) :
    valueRecasts r.toTreeRecast es = recast r es := by
  induction es with
  | nil => rfl
  | cons e es ih => rw [valueRecasts, ih]; rfl

private theorem entryRecasts_eq (r : Recast) (es : List Entry) :
    entryRecasts r.toTreeRecast es = recast r es := by
  induction es with
  | nil => rfl
  | cons e es ih =>
    obtain ⟨key, _ | value⟩ := e <;> rw [entryRecasts, ih] <;> rfl

private theorem propertyRecasts_eq (r : Recast) (ps : List Property) :
    propertyRecasts r.toTreeRecast ps = recast r ps := by
  induction ps with
  | nil => rfl
  | cons p ps ih => rw [propertyRecasts, ih]; rfl

private theorem optionRecasts_eq (r : Recast) (os : List ChoiceOption) :
    optionRecasts r.toTreeRecast os = recast r os := by
  induction os with
  | nil => rfl
  | cons o os ih => rw [optionRecasts, ih]; rfl

private theorem branchRecasts_eq (r : Recast) (bs : List Branch) :
    branchRecasts r.toTreeRecast bs = recast r bs := by
  induction bs with
  | nil => rfl
  | cons b bs ih => rw [branchRecasts, ih]; rfl

private theorem operationRecasts_eq (r : Recast) (os : List Operation) :
    operationRecasts r.toTreeRecast os = recast r os := by
  induction os with
  | nil => rfl
  | cons o os ih => rw [operationRecasts, ih]; rfl

private theorem handlerRecasts_eq (r : Recast) (h : Option Handler) :
    handlerRecasts r.toTreeRecast h = recast r h := by
  cases h <;> rfl

private theorem clauseRecasts_eq (r : Recast) (b : Option Body) :
    clauseRecasts r.toTreeRecast b = recast r b := by
  cases b <;> rfl

private theorem permissionRecasts_eq (r : Recast) (ps : Option (List Property)) :
    permissionRecasts r.toTreeRecast ps = recast r ps := by
  cases ps with
  | none => rfl
  | some ps => rw [permissionRecasts, propertyRecasts_eq]; rfl

/-! A record is recast field by field, its own place as that of a part. -/

section Fields

variable (r : Recast)

@[simp] theorem recast_property {key value span} :
    recast r (⟨key, value, span⟩ : Property)
      = ⟨recast r key, recast r value, recast r span⟩ := rfl

@[simp] theorem recast_agentOf {name model prompt skills permissions properties keys span} :
    recast r (⟨name, model, prompt, skills, permissions, properties, keys, span⟩ : Agent)
      = ⟨recast r name, recast r model, recast r prompt, recast r skills, recast r permissions,
          recast r properties, recast r keys, r.extent span⟩ := rfl

@[simp] theorem recast_blockOf {name params body span} :
    recast r (⟨name, params, body, span⟩ : Block)
      = ⟨recast r name, recast r params, recast r body, r.extent span⟩ := rfl

@[simp] theorem recast_sessionOf
    {name prompt agent model skills context retry backoff properties keys arrow span} :
    recast r (⟨name, prompt, agent, model, skills, context, retry, backoff, properties, keys,
        arrow, span⟩ : Session)
      = ⟨recast r name, recast r prompt, recast r agent, recast r model, recast r skills,
          recast r context, recast r retry, recast r backoff, recast r properties, recast r keys,
          recast r arrow, r.extent span⟩ := rfl

@[simp] theorem recast_bindingOf {name value span} :
    recast r (⟨name, value, span⟩ : Binding)
      = ⟨recast r name, recast r value, r.extent span⟩ := rfl

@[simp] theorem recast_bodyOf {body span} :
    recast r (⟨body, span⟩ : Body)
      = ⟨recast r body, r.extent span⟩ := rfl

@[simp] theorem recast_parallelOf {join onFail count keys body span} :
    recast r (⟨join, onFail, count, keys, body, span⟩ : Parallel)
      = ⟨recast r join, recast r onFail, recast r count, recast r keys, recast r body,
          r.extent span⟩ := rfl

@[simp] theorem recast_repeatOf {count index body span} :
    recast r (⟨count, index, body, span⟩ : Repeat)
      = ⟨recast r count, recast r index, recast r body, r.extent span⟩ := rfl

@[simp] theorem recast_forEachOf {item index collection isParallel forKeyword inKeyword body span} :
    recast r (⟨item, index, collection, isParallel, forKeyword, inKeyword, body, span⟩ : ForEach)
      = ⟨recast r item, recast r index, recast r collection, isParallel, recast r forKeyword,
          recast r inKeyword, recast r body, r.extent span⟩ := rfl

@[simp] theorem recast_loopOf {condition maxIterations index keys body span} :
    recast r (⟨condition, maxIterations, index, keys, body, span⟩ : Loop)
      = ⟨recast r condition, recast r maxIterations, recast r index, recast r keys, recast r body,
          r.extent span⟩ := rfl

@[simp] theorem recast_handlerOf {error body span} :
    recast r (⟨error, body, span⟩ : Handler)
      = ⟨recast r error, recast r body, r.extent span⟩ := rfl

@[simp] theorem recast_tryOf {body handler cleanup span} :
    recast r (⟨body, handler, cleanup, span⟩ : Try)
      = ⟨recast r body, recast r handler, recast r cleanup, r.extent span⟩ := rfl

@[simp] theorem recast_optionOf {label body span} :
    recast r (⟨label, body, span⟩ : ChoiceOption)
      = ⟨recast r label, recast r body, r.extent span⟩ := rfl

@[simp] theorem recast_choiceOf {criteria options span} :
    recast r (⟨criteria, options, span⟩ : Choice)
      = ⟨recast r criteria, recast r options, r.extent span⟩ := rfl

@[simp] theorem recast_branchOf {keyword condition body span} :
    recast r (⟨keyword, condition, body, span⟩ : Branch)
      = ⟨recast r keyword, recast r condition, recast r body, r.extent span⟩ := rfl

@[simp] theorem recast_conditionalOf {branches otherwise span} :
    recast r (⟨branches, otherwise, span⟩ : Conditional)
      = ⟨recast r branches, recast r otherwise, r.extent span⟩ := rfl

@[simp] theorem recast_operationOf {operator item accumulator body span} :
    recast r (⟨operator, item, accumulator, body, span⟩ : Operation)
      = ⟨recast r operator, recast r item, recast r accumulator, recast r body,
          r.extent span⟩ := rfl

@[simp] theorem recast_pipeOf {input operations span} :
    recast r (⟨input, operations, span⟩ : Pipe)
      = ⟨recast r input, recast r operations, r.extent span⟩ := rfl

@[simp] theorem recast_invocationOf {name args span} :
    recast r (⟨name, args, span⟩ : Invocation)
      = ⟨recast r name, recast r args, r.extent span⟩ := rfl

@[simp] theorem recast_arrayOf {items span} :
    recast r (⟨items, span⟩ : ArrayLit)
      = ⟨recast r items, r.extent span⟩ := rfl

@[simp] theorem recast_entryOf {key value} :
    recast r (⟨key, value⟩ : Entry)
      = ⟨recast r key, recast r value⟩ := rfl

@[simp] theorem recast_objectOf {entries span} :
    recast r (⟨entries, span⟩ : ObjectLit)
      = ⟨recast r entries, r.extent span⟩ := rfl

@[simp] theorem recast_asBinding {keyword name} :
    recast r (⟨keyword, name⟩ : AsBinding)
      = ⟨recast r keyword, recast r name⟩ := rfl

@[simp] theorem recast_loopCondition {kind keyword discretion} :
    recast r (⟨kind, keyword, discretion⟩ : LoopCondition)
      = ⟨kind, recast r keyword, recast r discretion⟩ := rfl

@[simp] theorem recast_import {skill source fromKeyword span} :
    recast r (⟨skill, source, fromKeyword, span⟩ : Import)
      = ⟨recast r skill, recast r source, recast r fromKeyword, r.extent span⟩ := rfl

@[simp] theorem recast_throwOf {message span} :
    recast r (⟨message, span⟩ : Throw)
      = ⟨recast r message, r.extent span⟩ := rfl

@[simp] theorem recast_modifier {key value span} :
    recast r (⟨key, value, span⟩ : Modifier)
      = ⟨recast r key, recast r value, recast r span⟩ := rfl

end Fields

/-! A tree is recast branch by branch. Only a comment as a statement can be left out. -/

section Constructors

variable (r : Recast)

-- a list within a tree is the list of its parts
attribute [local simp] valueRecasts_eq entryRecasts_eq propertyRecasts_eq optionRecasts_eq
  branchRecasts_eq operationRecasts_eq handlerRecasts_eq clauseRecasts_eq permissionRecasts_eq

@[simp] theorem recast_body_nil : recast r ([] : List Statement) = [] := rfl

private theorem recast_body_singleton (s : Statement) : recast r [s] = s.recasts r.toTreeRecast :=
  List.append_nil _

@[simp] theorem recast_comment (c : Comment) :
    recast r [Statement.comment c] = (r.comment c).toList.map .comment :=
  recast_body_singleton r _

@[simp] theorem recast_importSkill (i : Import) :
    recast r [Statement.importSkill i] = [.importSkill (recast r i)] := by
  rw [recast_body_singleton]
  rfl

@[simp] theorem recast_agent (a : Agent) :
    recast r [Statement.agent a] = [.agent (recast r a)] := by
  rw [recast_body_singleton]
  obtain ⟨⟩ := a
  simp [recast]

@[simp] theorem recast_block (b : Block) :
    recast r [Statement.block b] = [.block (recast r b)] := by
  rw [recast_body_singleton]
  obtain ⟨⟩ := b
  simp [recast]

@[simp] theorem recast_binding (kind : BindingKind) (b : Binding) :
    recast r [Statement.binding kind b] = [.binding kind (recast r b)] := by
  rw [recast_body_singleton]
  rfl

@[simp] theorem recast_assignment (b : Binding) :
    recast r [Statement.assignment b] = [.assignment (recast r b)] := by
  rw [recast_body_singleton]
  rfl

@[simp] theorem recast_action (a : Action) :
    recast r [Statement.action a] = [.action (recast r a)] := by
  rw [recast_body_singleton]
  rfl

@[simp] theorem recast_parallel (p : Parallel) :
    recast r [Statement.parallel p] = [.parallel (recast r p)] := by
  rw [recast_body_singleton]
  obtain ⟨⟩ := p
  simp [recast]

@[simp] theorem recast_repeated (p : Repeat) :
    recast r [Statement.repeated p] = [.repeated (recast r p)] := by
  rw [recast_body_singleton]
  obtain ⟨⟩ := p
  simp [recast]

@[simp] theorem recast_forEach (f : ForEach) :
    recast r [Statement.forEach f] = [.forEach (recast r f)] := by
  rw [recast_body_singleton]
  obtain ⟨⟩ := f
  simp [recast]

@[simp] theorem recast_loop (l : Loop) :
    recast r [Statement.loop l] = [.loop (recast r l)] := by
  rw [recast_body_singleton]
  obtain ⟨⟩ := l
  simp [recast]

@[simp] theorem recast_attempt (t : Try) :
    recast r [Statement.attempt t] = [.attempt (recast r t)] := by
  rw [recast_body_singleton]
  obtain ⟨⟩ := t
  simp [recast]

@[simp] theorem recast_throw (t : Throw) :
    recast r [Statement.throw t] = [.throw (recast r t)] := by
  rw [recast_body_singleton]
  rfl

@[simp] theorem recast_choice (c : Choice) :
    recast r [Statement.choice c] = [.choice (recast r c)] := by
  rw [recast_body_singleton]
  obtain ⟨⟩ := c
  simp [recast]

@[simp] theorem recast_conditional (c : Conditional) :
    recast r [Statement.conditional c] = [.conditional (recast r c)] := by
  rw [recast_body_singleton]
  obtain ⟨⟩ := c
  simp [recast]

@[simp] theorem recast_session (s : Session) :
    recast r (Action.session s) = .session (recast r s) := by
  obtain ⟨⟩ := s
  simp [recast]

@[simp] theorem recast_pipe (p : Pipe) :
    recast r (Action.pipe p) = .pipe (recast r p) := by
  obtain ⟨⟩ := p
  simp [recast]

@[simp] theorem recast_doBlock (b : Body) :
    recast r (Action.doBlock b) = .doBlock (recast r b) := rfl

@[simp] theorem recast_invoke (i : Invocation) :
    recast r (Action.invoke i) = .invoke (recast r i) := by
  obtain ⟨⟩ := i
  simp [recast]

@[simp] theorem recast_expr_action (a : Action) :
    recast r (Expr.action a) = .action (recast r a) := rfl

@[simp] theorem recast_expr_string (s : StringLit) :
    recast r (Expr.string s) = .string (recast r s) := rfl

@[simp] theorem recast_expr_number (n : Located String) :
    recast r (Expr.number n) = .number (recast r n) := rfl

@[simp] theorem recast_expr_ident (name : Ident) :
    recast r (Expr.ident name) = .ident (recast r name) := rfl

@[simp] theorem recast_expr_array (a : ArrayLit) :
    recast r (Expr.array a) = .array (recast r a) := by
  obtain ⟨⟩ := a
  simp [recast]

@[simp] theorem recast_expr_object (o : ObjectLit) :
    recast r (Expr.object o) = .object (recast r o) := by
  obtain ⟨⟩ := o
  simp [recast]

@[simp] theorem recast_expr_discretion (d : Discretion) :
    recast r (Expr.discretion d) = .discretion (recast r d) := rfl

@[simp] theorem recast_property_expr (e : Expr) :
    recast r (PropertyValue.expr e) = .expr (recast r e) := rfl

@[simp] theorem recast_property_context (c : Context) :
    recast r (PropertyValue.context c) = .context (recast r c) := rfl

@[simp] theorem recast_property_nested (ps : List Property) :
    recast r (PropertyValue.nested ps) = .nested (recast r ps) := by
  simp [recast]

/-- Messages call a value the same wherever it stands. -/
theorem describe_recast_expr (e : Expr) : (recast r e).describe = e.describe := by
  cases e with
  | action a =>
    cases a with
    | session s => rw [recast_expr_action, recast_session]; rfl
    | pipe p => rw [recast_expr_action, recast_pipe]; rfl
    | doBlock b => rfl
    | invoke i => rw [recast_expr_action, recast_invoke]; rfl
  | array a => rw [recast_expr_array]; rfl
  | object o => rw [recast_expr_object]; rfl
  | _ => rfl

end Constructors

/-! ## Forgetting every place -/

/-- A statement stays where its place is forgotten. -/
theorem length_bare_body (body : List Statement) : (recast .bare body).length = body.length := by
  induction body with
  | nil => rfl
  | cons s body ih =>
    have one : (s.recasts Recast.bare.toTreeRecast).length = 1 := by cases s <;> rfl
    change (s.recasts Recast.bare.toTreeRecast ++ recast .bare body).length = _
    rw [List.length_append, one, ih, List.length_cons, Nat.add_comm]

end ProseLang
