import ProseLang.Proofs.Grammar.Outline

/-!
# Places in a program

`Program.spans` lists every place that a program records: those of constructs and their clauses
(`Visit.extents`) and those of leaves (`Leaf.spans`). The places of constructs are those of
outlines: what a part and its clauses take up (`Visit.outlines`) is among the outlines of its
program (`Program.outlines_of_visits`).
-/

namespace ProseLang

/-- The place of a leaf and those of the names in it. -/
def Leaf.spans : Leaf → List Span
  | string s => s.span :: s.interpolations.map Located.span
  | l => [l.span]

/-- The places of the clauses of a statement. -/
def Statement.clauses : Statement → List Span
  | importSkill i => [i.skill.span, i.source.span]
  | attempt t => t.handler.toList.map HandlerOf.span ++ t.cleanup.toList.map BodyOf.span
  | choice c => c.options.map OptionOf.span
  | conditional c => c.branches.map BranchOf.span ++ c.otherwise.toList.map BodyOf.span
  | _ => []

/-- The places of a part and its clauses. -/
def Visit.extents : Visit → List Span
  | statement s => s.span :: s.clauses
  | action a => [a.span]
  | operation o => [o.span]
  | property p => [p.span]
  | value e => [e.span]
  | statementEnd | context _ | string _ | discretion _ | reference _ => []

/-- Every place that a part records itself. -/
def Visit.spans (v : Visit) : List Span := v.extents ++ v.leaves.flatMap Leaf.spans

/-- Every place that a program records. -/
def Program.spans (p : Program) : List Span :=
  p.span :: (p.comments.map Comment.span ++ p.visits.flatMap Visit.spans)

/-! ## Outlines of parts -/

/-- What the header and the clauses of a statement take up. -/
def Statement.pieces : Statement → List Outline
  | importSkill i => [i.skill.outline, i.source.outline]
  | agent a => a.outlines
  | parallel p => p.outlines
  | attempt t => handlerOutlines t.handler ++ clauseOutlines .finally_ t.cleanup
  | choice c => optionOutlines c.options
  | conditional c => branchOutlines .if_ c.branches ++ clauseOutlines .else_ c.otherwise
  | _ => []

/-- What the settings of an action take up. -/
def Action.pieces : Action → List Outline
  | session s => s.outlines
  | _ => []

/-- What a part and its clauses take up. -/
def Visit.outlines : Visit → List Outline
  | statement s => s.outline :: s.pieces
  | action a => a.outline :: a.pieces
  | operation o => [o.outline]
  | property p => [p.outline]
  | value e => [e.outline]
  | string s => [s.outline]
  | statementEnd | context _ | discretion _ | reference _ => []

private theorem Statement.outline_span (s : Statement) : s.outline.span = s.span := by
  cases s with
  | action a => exact a.outline_span
  | comment | importSkill | agent | block | binding | assignment | parallel | repeated | forEach
  | loop | attempt | throw | choice | conditional => rfl

private theorem map_span_branchOutlines (word : Keyword) (branches : List Branch) :
    (branchOutlines word branches).map Outline.span = branches.map BranchOf.span := by
  induction branches generalizing word with
  | nil => rfl
  | cons b branches ih => exact congrArg (b.span :: ·) (ih .elif)

private theorem map_span_optionOutlines (options : List ChoiceOption) :
    (optionOutlines options).map Outline.span = options.map OptionOf.span := by
  induction options with
  | nil => rfl
  | cons o options ih => exact congrArg (o.span :: ·) ih

private theorem map_span_clauseOutlines (word : Keyword) (clause : Option Body) :
    (clauseOutlines word clause).map Outline.span = clause.toList.map BodyOf.span := by
  cases clause <;> rfl

private theorem map_span_handlerOutlines (handler : Option Handler) :
    (handlerOutlines handler).map Outline.span = handler.toList.map HandlerOf.span := by
  cases handler <;> rfl

/-- The places of a part and its clauses are those of their outlines. -/
theorem Visit.extents_subset (v : Visit) : v.extents ⊆ v.outlines.map Outline.span := by
  cases v with
  | statement s =>
    rw [extents, outlines, List.map_cons, s.outline_span]
    refine List.cons_subset_cons _ ?_
    cases s with
    | attempt t =>
      simp [Statement.clauses, Statement.pieces, map_span_handlerOutlines, map_span_clauseOutlines]
    | choice c => simp [Statement.clauses, Statement.pieces, map_span_optionOutlines]
    | conditional c =>
      simp [Statement.clauses, Statement.pieces, map_span_branchOutlines, map_span_clauseOutlines]
    | importSkill i => exact List.Subset.refl _
    | _ => exact List.nil_subset _
  | action a =>
    rw [extents, outlines, List.map_cons, a.outline_span]
    exact List.cons_subset_cons _ (List.nil_subset _)
  | value e =>
    rw [extents, outlines, List.map_singleton, e.outline_span]
    exact List.Subset.refl _
  | operation | property => exact List.Subset.refl _
  | statementEnd | context | string | discretion | reference => exact List.nil_subset _

/-- Whether an outline and everything below it have a property. -/
def Outline.All (P : Outline → Prop) (o : Outline) : Prop := ∀ p ∈ o.nodes, P p

/-- Whether what a part and its clauses take up has a property. -/
def Visit.Lies (P : Outline → Prop) (v : Visit) : Prop := ∀ o ∈ v.outlines, P o

section

variable {P : Outline → Prop}

namespace Outline

variable {word : Option Keyword} {place : Span} {parts row : List Outline}

private theorem all_node :
    (node word place parts row).All P
      ↔ P (node word place parts row) ∧ (∀ o ∈ parts, o.All P) ∧ ∀ o ∈ row, o.All P := by
  simp only [All, nodes, List.forall_mem_cons, List.forall_mem_append, mem_nodesOf]
  grind

private theorem All.self {o : Outline} (h : o.All P) : P o := h o o.self_mem_nodes

private theorem selves {os : List Outline} (h : ∀ o ∈ os, o.All P) :
    ∀ o ∈ os, P o := fun o ho ↦ (h o ho).self

end Outline

open Outline

private theorem lies_statement {s : Statement} (h : s.outline.All P)
    (pieces : ∀ o ∈ s.pieces, o.All P) :
    (Visit.statement s).Lies P := List.forall_mem_cons.2 ⟨h.self, selves pieces⟩

/-- A statement without pieces. -/
theorem lies_plain {s : Statement} (h : s.outline.All P) (plain : s.pieces = []) :
    (Visit.statement s).Lies P :=
  lies_statement h fun _ ho ↦ absurd (plain ▸ ho) List.not_mem_nil

private theorem lies_action {a : Action} (h : a.outline.All P) (pieces : ∀ o ∈ a.pieces, o.All P) :
    (Visit.action a).Lies P := List.forall_mem_cons.2 ⟨h.self, selves pieces⟩

private theorem lies_one {v : Visit} {o : Outline} (h : o.All P) (one : v.outlines = [o]) :
    v.Lies P := by
  rw [Visit.Lies, one]
  exact List.forall_mem_singleton.2 h.self

private theorem lies_none {v : Visit} (none : v.outlines = []) : v.Lies P := by
  rw [Visit.Lies, none]
  exact fun o ho ↦ absurd ho List.not_mem_nil

private theorem strings_lie {s : Option StringLit}
    (h : ∀ o ∈ s.toList.map StringLit.outline, o.All P) : ∀ v ∈ Visit.strings s, v.Lies P := by
  cases s with
  | none => simp [Visit.strings]
  | some s => exact List.forall_mem_singleton.2 (lies_one (List.forall_mem_singleton.1 h) rfl)

/-! ## The outlines of a program -/

mutual

/-- What holds of the places below a statement holds of the places of its parts. -/
theorem Statement.lies_of_outline :
    (s : Statement) → s.outline.All P →
      (Visit.statement s).Lies P ∧ ∀ v ∈ s.visits everywhere, v.Lies P
  | .comment c, h => ⟨lies_plain h rfl, by simp [Statement.visits]⟩
  | .importSkill i, h => by
    have parts := (all_node.1 h).2.1
    have skill : i.skill.outline.All P := parts _ (by simp)
    have source : i.source.outline.All P := parts _ (by simp)
    refine ⟨lies_statement h ?_, ?_⟩
    · exact List.forall_mem_cons.2 ⟨skill, List.forall_mem_singleton.2 source⟩
    · exact List.forall_mem_cons.2 ⟨lies_one skill rfl,
        List.forall_mem_singleton.2 (lies_one source rfl)⟩
  | .agent ⟨name, model, prompt, skills, permissions, properties, keys, span⟩, h => by
    obtain ⟨first, others⟩ := List.forall_mem_append.1 (all_node.1 h).2.1
    obtain ⟨settings, granted⟩ := List.forall_mem_append.1 first
    have inPrompt : ∀ o ∈ prompt.toList.map StringLit.outline, o.All P := fun o ho ↦
      settings o (by simp only [AgentOf.outlines]; grind)
    refine ⟨lies_statement h settings, ?_⟩
    simp only [Statement.visits, List.forall_mem_append]
    exact ⟨⟨strings_lie inPrompt, permissions_lie permissions granted⟩,
      properties_lie properties others⟩
  | .block ⟨name, params, body, span⟩, h => ⟨lies_plain h rfl, body_lies body (all_node.1 h).2.2⟩
  | .binding kind ⟨name, value, span⟩, h => by
    have row := (all_node.1 h).2.2
    exact ⟨lies_plain h rfl, value.lies_of_outline (row _ (by simp))⟩
  | .assignment ⟨name, value, span⟩, h => by
    have row := (all_node.1 h).2.2
    exact ⟨lies_plain h rfl, value.lies_of_outline (row _ (by simp))⟩
  | .action a, h => by
    refine ⟨lies_plain h rfl, ?_⟩
    simp only [Statement.visits, forall_opened]
    exact a.lies_of_outline h
  | .parallel ⟨join, onFail, count, keys, body, span⟩, h => by
    obtain ⟨-, parts, row⟩ := all_node.1 h
    exact ⟨lies_statement h parts, body_lies body row⟩
  | .repeated ⟨count, index, body, span⟩, h =>
    ⟨lies_plain h rfl, body_lies body (all_node.1 h).2.2⟩
  | .forEach ⟨item, index, collection, isParallel, forKeyword, inKeyword, body, span⟩, h => by
    obtain ⟨-, parts, row⟩ := all_node.1 h
    refine ⟨lies_plain h rfl, ?_⟩
    simp only [Statement.visits, List.forall_mem_append]
    exact ⟨collection.lies_of_outline (parts _ (by simp)), body_lies body row⟩
  | .loop ⟨condition, maxIterations, index, keys, body, span⟩, h => by
    refine ⟨lies_plain h rfl, ?_⟩
    simp only [Statement.visits, List.forall_mem_append]
    refine ⟨?_, body_lies body (all_node.1 h).2.2⟩
    cases condition with
    | none => simp
    | some c => exact List.forall_mem_singleton.2 (lies_none rfl)
  | .attempt ⟨body, handler, cleanup, span⟩, h => by
    obtain ⟨first, inCleanup⟩ := List.forall_mem_append.1 (all_node.1 h).2.2
    obtain ⟨inBody, inHandler⟩ := List.forall_mem_append.1 first
    refine ⟨lies_statement h (List.forall_mem_append.2 ⟨inHandler, inCleanup⟩), ?_⟩
    simp only [Statement.visits, List.forall_mem_append]
    exact ⟨⟨body_lies body inBody, handler_lies handler inHandler⟩,
      clause_lies .finally_ cleanup inCleanup⟩
  | .throw t, h => ⟨lies_plain h rfl, strings_lie (all_node.1 h).2.1⟩
  | .choice ⟨criteria, options, span⟩, h => by
    have row := (all_node.1 h).2.2
    exact ⟨lies_statement h row, List.forall_mem_cons.2 ⟨lies_none rfl, options_lie options row⟩⟩
  | .conditional ⟨branches, otherwise, span⟩, h => by
    have row := (all_node.1 h).2.2
    obtain ⟨inBranches, inOtherwise⟩ := List.forall_mem_append.1 row
    refine ⟨lies_statement h row, ?_⟩
    simp only [Statement.visits, List.forall_mem_append]
    exact ⟨branches_lie .if_ branches inBranches, clause_lies .else_ otherwise inOtherwise⟩

private theorem body_lies :
    (body : List Statement) → (∀ o ∈ bodyOutlines body, o.All P) →
      ∀ v ∈ bodyVisits everywhere body, v.Lies P
  | [], _ => by simp [bodyVisits]
  | s :: body, h => by
    simp only [bodyOutlines, List.forall_mem_cons, List.forall_mem_append] at h
    obtain ⟨first, -, rest⟩ := h
    simp only [bodyVisits, List.forall_mem_append, List.forall_mem_cons, forall_opened]
    exact ⟨s.lies_of_outline first, lies_none rfl, body_lies body rest⟩

private theorem handler_lies :
    (handler : Option Handler) → (∀ o ∈ handlerOutlines handler, o.All P) →
      ∀ v ∈ handlerVisits everywhere handler, v.Lies P
  | none, _ => by simp [handlerVisits]
  | some ⟨error, body, span⟩, h =>
    body_lies body (all_node.1 (List.forall_mem_singleton.1 h)).2.2

private theorem clause_lies (word : Keyword) :
    (clause : Option Body) → (∀ o ∈ clauseOutlines word clause, o.All P) →
      ∀ v ∈ clauseVisits everywhere clause, v.Lies P
  | none, _ => by simp [clauseVisits]
  | some ⟨body, span⟩, h => body_lies body (all_node.1 (List.forall_mem_singleton.1 h)).2.2

private theorem options_lie :
    (options : List ChoiceOption) → (∀ o ∈ optionOutlines options, o.All P) →
      ∀ v ∈ optionVisits everywhere options, v.Lies P
  | [], _ => by simp [optionVisits]
  | ⟨label, body, span⟩ :: options, h => by
    obtain ⟨first, rest⟩ := List.forall_mem_cons.1 h
    obtain ⟨-, parts, row⟩ := all_node.1 first
    simp only [optionVisits, List.cons_append, List.forall_mem_cons, List.forall_mem_append]
    exact ⟨lies_one (List.forall_mem_singleton.1 parts) rfl, body_lies body row,
      options_lie options rest⟩

private theorem branches_lie (word : Keyword) :
    (branches : List Branch) → (∀ o ∈ branchOutlines word branches, o.All P) →
      ∀ v ∈ branchVisits everywhere branches, v.Lies P
  | [], _ => by simp [branchVisits]
  | ⟨keyword, condition, body, span⟩ :: branches, h => by
    obtain ⟨first, rest⟩ := List.forall_mem_cons.1 h
    simp only [branchVisits, List.cons_append, List.forall_mem_cons, List.forall_mem_append]
    exact ⟨lies_none rfl, body_lies body (all_node.1 first).2.2, branches_lie .elif branches rest⟩

private theorem Action.lies_of_outline :
    (a : Action) → a.outline.All P →
      (Visit.action a).Lies P ∧ ∀ v ∈ a.visits everywhere, v.Lies P
  | .session ⟨name, prompt, agent, model, skills, context, retry, backoff, properties, keys, arrow,
      span⟩, h => by
    obtain ⟨settings, others⟩ := List.forall_mem_append.1 (all_node.1 h).2.1
    have inPrompt : ∀ o ∈ prompt.toList.map StringLit.outline, o.All P := fun o ho ↦
      settings o (by simp only [SessionOf.outlines]; grind)
    refine ⟨lies_action h settings, ?_⟩
    simp only [Action.visits, List.forall_mem_append, List.forall_mem_cons]
    exact ⟨strings_lie inPrompt, lies_none rfl, properties_lie properties others⟩
  | .pipe ⟨input, operations, span⟩, h => by
    obtain ⟨first, rest⟩ := List.forall_mem_cons.1 (all_node.1 h).2.2
    refine ⟨lies_action h fun o ho ↦ absurd ho List.not_mem_nil, ?_⟩
    simp only [Action.visits, List.forall_mem_append]
    exact ⟨input.lies_of_outline first, operations_lie operations rest⟩
  | .doBlock ⟨body, span⟩, h =>
    ⟨lies_action h fun o ho ↦ absurd ho List.not_mem_nil, body_lies body (all_node.1 h).2.2⟩
  | .invoke ⟨name, args, span⟩, h =>
    ⟨lies_action h fun o ho ↦ absurd ho List.not_mem_nil,
      values_lie args (List.forall_mem_cons.1 (all_node.1 h).2.2).2⟩

private theorem operations_lie :
    (operations : List Operation) → (∀ o ∈ operationOutlines operations, o.All P) →
      ∀ v ∈ operationVisits everywhere operations, v.Lies P
  | [], _ => by simp [operationVisits]
  | ⟨operator, item, accumulator, body, span⟩ :: operations, h => by
    obtain ⟨first, rest⟩ := List.forall_mem_cons.1 h
    simp only [operationVisits, List.forall_mem_append, forall_opened]
    refine ⟨⟨lies_one first ?_, body_lies body (all_node.1 first).2.2⟩,
      operations_lie operations rest⟩
    rw [Visit.outlines, OperationOf.outline, ← bodyOutlines_eq]

private theorem Expr.lies_of_outline :
    (e : Expr) → e.outline.All P → ∀ v ∈ e.visits everywhere, v.Lies P
  | .action a, h => by
    simp only [Expr.visits, forall_opened]
    exact a.lies_of_outline h
  | .array ⟨items, span⟩, h =>
    List.forall_mem_cons.2 ⟨lies_one h rfl, values_lie items (all_node.1 h).2.2⟩
  | .object ⟨entries, span⟩, h =>
    List.forall_mem_cons.2 ⟨lies_one h rfl, entries_lie entries (all_node.1 h).2.2⟩
  | .string s, h =>
    List.forall_mem_cons.2 ⟨lies_one h rfl, List.forall_mem_singleton.2 (lies_one h rfl)⟩
  | .number n, h => List.forall_mem_singleton.2 (lies_one h rfl)
  | .ident name, h =>
    List.forall_mem_cons.2 ⟨lies_one h rfl, List.forall_mem_singleton.2 (lies_none rfl)⟩
  | .discretion d, h =>
    List.forall_mem_cons.2 ⟨lies_one h rfl, List.forall_mem_singleton.2 (lies_none rfl)⟩

private theorem values_lie :
    (es : List Expr) → (∀ o ∈ valueOutlines es, o.All P) →
      ∀ v ∈ valueVisits everywhere es, v.Lies P
  | [], _ => by simp [valueVisits]
  | e :: es, h => by
    obtain ⟨first, rest⟩ := List.forall_mem_cons.1 h
    simp only [valueVisits, List.forall_mem_append]
    exact ⟨e.lies_of_outline first, values_lie es rest⟩

private theorem entries_lie :
    (es : List Entry) → (∀ o ∈ entryOutlines es, o.All P) →
      ∀ v ∈ entryVisits everywhere es, v.Lies P
  | [], _ => by simp [entryVisits]
  | ⟨key, some value⟩ :: es, h => by
    simp only [entryOutlines, List.forall_mem_cons] at h
    simp only [entryVisits, List.forall_mem_append]
    exact ⟨value.lies_of_outline h.2.1, entries_lie es h.2.2⟩
  | ⟨key, none⟩ :: es, h => by
    simp only [entryOutlines, List.forall_mem_cons] at h
    simp only [entryVisits, List.forall_mem_cons]
    exact ⟨lies_none rfl, entries_lie es h.2⟩

/-- What holds of the places below properties holds of the places of their parts. -/
theorem properties_lie :
    (ps : List Property) → (∀ o ∈ propertyOutlines ps, o.All P) →
      ∀ v ∈ propertyVisits everywhere ps, v.Lies P
  | [], _ => by simp [propertyVisits]
  | ⟨key, value, span⟩ :: ps, h => by
    obtain ⟨first, rest⟩ := List.forall_mem_cons.1 h
    have row := (all_node.1 first).2.2
    simp only [propertyVisits, List.forall_mem_append, forall_opened]
    exact ⟨⟨lies_one first rfl, value.lies_of_outlines (List.forall_mem_cons.1 row).2⟩,
      properties_lie ps rest⟩

/-- What holds of the places below permissions holds of the places of their parts. -/
theorem permissions_lie :
    (permissions : Option (List Property)) → (∀ o ∈ permissionOutlines permissions, o.All P) →
      ∀ v ∈ permissionVisits everywhere permissions, v.Lies P
  | none, _ => by simp [permissionVisits]
  | some ps, h => properties_lie ps h

private theorem PropertyValue.lies_of_outlines :
    (value : PropertyValue) → (∀ o ∈ value.outlines, o.All P) →
      ∀ v ∈ value.visits everywhere, v.Lies P
  | .expr e, h => e.lies_of_outline (List.forall_mem_singleton.1 h)
  | .context _, _ => List.forall_mem_singleton.2 (lies_none rfl)
  | .nested ps, h => properties_lie ps h

end

end

/-- What the parts of a program and their clauses take up is among its outlines. -/
theorem Program.outlines_of_visits (p : Program) :
    ∀ v ∈ p.visits, v.outlines ⊆ Outline.nodesOf p.outlines := by
  have within : ∀ o ∈ bodyOutlines p.statements, o.All (· ∈ Outline.nodesOf p.outlines) := by
    rw [bodyOutlines_eq]
    exact fun o ho q hq ↦ Outline.mem_nodesOf.2 ⟨o, ho, hq⟩
  exact body_lies p.statements within

end ProseLang
