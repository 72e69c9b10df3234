import ProseLang.Canonical.Expansion

/-!
# Settled programs

A program is settled if nothing in it is left for expansion to write out: sessions have a context
of their own and the settings of their agents, results have names, parallel blocks have their
strategy and policy, and pipe operations name what they bind. The predicate is stated without
expansion. Main statements: expansion settles every program (`canonicalBody_settled`), and it
leaves a settled program as it is (`canonicalBody_of_settled`).
-/

namespace ProseLang

/-- Every value that a step of expansion gives, wherever the count of names stands, has a
property. -/
def Yields {α : Type} (P : α → Prop) (x : Expand α) : Prop := ∀ n, P (x.run n).1

namespace Yields

variable {α β : Type} {P : α → Prop} {Q : β → Prop}

/-- A step that gives no name. -/
theorem pure {a : α} (h : P a) : Yields P (pure a : Expand α) := fun _ ↦ h

/-- One step after another. -/
theorem bind {x : Expand α} {f : α → Expand β} (hx : Yields P x)
    (hf : ∀ a, P a → Yields Q (f a)) : Yields Q (x >>= f) :=
  fun n ↦ hf _ (hx n) _

/-- Nothing is asked of a step. -/
theorem any (x : Expand α) : Yields (fun _ ↦ True) x := fun _ ↦ trivial

end Yields

/-- Whether a session has everything that its agent, its place and its other settings give it. -/
structure SessionOf.Settled (k : Expansion) (s : Session) : Prop where
  arrow : s.arrow = none
  context : s.context.isImplicit = false
  backoff : s.retry.isSome → s.backoff.isSome
  model : ∀ a, k.agentOf? s = some a → a.model.isSome → s.model.isSome
  skills : ∀ a, k.agentOf? s = some a → a.skills.isEmpty = false → s.skills.isSome
  prompt : ∀ a, k.agentOf? s = some a → a.prompt.isSome → s.prompt.isSome

/-- Whether a parallel block has its strategy, its policy and the count that the strategy needs. -/
structure ParallelOf.HasDefaults (p : Parallel) : Prop where
  join : p.join.isSome
  onFail : p.onFail.isSome
  count : p.join.bind (fun j ↦ JoinStrategy.ofText? j.val) = some .any → p.count.isSome

/-- Whether a statement of a sequence has a name if it is a session. -/
def Statement.IsNamed : Statement → Prop
  | .action (.session s) => s.name.isSome
  | _ => True

/-- Whether a branch has a name if it is an action. -/
def Statement.IsNamedBranch : Statement → Prop
  | .action (.session s) => s.name.isSome
  | .action _ => False
  | _ => True

/-- Whether a pipe operation names what it binds. -/
structure OperationOf.HasNames (o : Operation) : Prop where
  item : o.item.isSome
  accumulator : o.operator.val = .reduce → o.accumulator.isSome

mutual

/-- Whether nothing within a statement is left to write out. -/
def Statement.Settled (k : Expansion) : Statement → Prop
  | .comment _ | .importSkill _ | .agent _ | .throw _ => True
  | .block ⟨_, _, body, _⟩ => BodySettled k body
  | .binding _ ⟨_, value, _⟩ => value.Settled k
  | .assignment ⟨_, value, _⟩ => value.Settled k
  | .action a => a.Settled k
  | .parallel ⟨join, onFail, count, keys, body, span⟩ =>
    ParallelOf.HasDefaults ⟨join, onFail, count, keys, [], span⟩ ∧ BranchesSettled k body
  | .repeated ⟨_, _, body, _⟩ => BodySettled k body
  | .forEach ⟨_, _, collection, _, _, _, body, _⟩ => collection.Settled k ∧ BodySettled k body
  | .loop ⟨_, _, _, _, body, _⟩ => BodySettled k body
  | .attempt ⟨body, handler, cleanup, _⟩ =>
    BodySettled k body ∧ HandlerSettled k handler ∧ ClauseSettled k cleanup
  | .choice ⟨_, options, _⟩ => OptionsSettled k options
  | .conditional ⟨branches, otherwise, _⟩ =>
    ConditionsSettled k branches ∧ ClauseSettled k otherwise

/-- Whether nothing within the statements of a sequence is left to write out. -/
def BodySettled (k : Expansion) : List Statement → Prop
  | [] => True
  | s :: body => s.Settled k ∧ s.IsNamed ∧ BodySettled k body

/-- Whether nothing within the branches of a parallel block is left to write out. -/
def BranchesSettled (k : Expansion) : List Statement → Prop
  | [] => True
  | s :: body => s.Settled k ∧ s.IsNamedBranch ∧ BranchesSettled k body

/-- Whether nothing within a handler is left to write out. -/
def HandlerSettled (k : Expansion) : Option Handler → Prop
  | none => True
  | some ⟨_, body, _⟩ => BodySettled k body

/-- Whether nothing within a clause that has a body only is left to write out. -/
def ClauseSettled (k : Expansion) : Option Body → Prop
  | none => True
  | some ⟨body, _⟩ => BodySettled k body

/-- Whether nothing within the options of a choice is left to write out. -/
def OptionsSettled (k : Expansion) : List ChoiceOption → Prop
  | [] => True
  | ⟨_, body, _⟩ :: options => BodySettled k body ∧ OptionsSettled k options

/-- Whether nothing within conditional branches is left to write out. -/
def ConditionsSettled (k : Expansion) : List Branch → Prop
  | [] => True
  | ⟨_, _, body, _⟩ :: branches => BodySettled k body ∧ ConditionsSettled k branches

/-- Whether nothing within an action is left to write out. -/
def Action.Settled (k : Expansion) : Action → Prop
  | .session s => s.Settled k
  | .pipe ⟨input, operations, _⟩ => input.Settled k ∧ OperationsSettled k operations
  | .doBlock ⟨body, _⟩ => BodySettled k body
  | .invoke ⟨_, args, _⟩ => ValuesSettled k args

/-- Whether nothing within pipe operations is left to write out. -/
def OperationsSettled (k : Expansion) : List Operation → Prop
  | [] => True
  | ⟨operator, item, accumulator, body, span⟩ :: operations =>
    OperationOf.HasNames ⟨operator, item, accumulator, [], span⟩ ∧ BodySettled k body
      ∧ OperationsSettled k operations

/-- Whether nothing within a value is left to write out. -/
def Expr.Settled (k : Expansion) : Expr → Prop
  | .action a => a.Settled k
  | .array ⟨items, _⟩ => ValuesSettled k items
  | .object ⟨entries, _⟩ => EntriesSettled k entries
  | .string _ | .number _ | .ident _ | .discretion _ => True

/-- Whether nothing within values is left to write out. -/
def ValuesSettled (k : Expansion) : List Expr → Prop
  | [] => True
  | e :: es => e.Settled k ∧ ValuesSettled k es

/-- Whether nothing within the entries of an object is left to write out. -/
def EntriesSettled (k : Expansion) : List Entry → Prop
  | [] => True
  | ⟨_, some value⟩ :: es => value.Settled k ∧ EntriesSettled k es
  | ⟨_, none⟩ :: es => EntriesSettled k es

end

/-! ## Expansion settles -/

/-- The settings of an agent do not change which agent a session has. -/
theorem Expansion.agentOf?_withAgent (k : Expansion) (s : Session) :
    k.agentOf? (k.withAgent s) = k.agentOf? s := by
  unfold withAgent
  split <;> rfl

/-- A session that is given a context is settled once it is written out. -/
theorem Expansion.session_settled (k : Expansion) {context : Context} (s : Session)
    (h : context.isImplicit = false) : (k.session context s).Settled k := by
  have agent : k.agentOf? (k.session context s) = k.agentOf? s := k.agentOf?_withAgent s
  refine ⟨rfl, ?_, ?_, ?_, ?_, ?_⟩
  · simp only [session]
    split
    · exact h
    · next hs => simpa using hs
  · intro hr
    have hr : (k.withAgent s).retry.isSome := hr
    simp only [session, hr]
    cases (k.withAgent s).backoff <;> rfl
  · intro a ha hm
    rw [agent] at ha
    simp [session, withAgent, ha, hm]
  · intro a ha hs
    rw [agent] at ha
    simp [session, withAgent, ha, hs]
  · intro a ha hp
    rw [agent] at ha
    simp [session, withAgent, ha, hp]

/-- A parallel block has its defaults once they are written out. -/
theorem ParallelOf.withDefaults_hasDefaults (p : Parallel) : p.withDefaults.HasDefaults := by
  refine ⟨rfl, by simp [withDefaults], fun h ↦ ?_⟩
  simp only [withDefaults, Option.bind_some] at h ⊢
  simp [h]

/-- What a statement hands down is never left to be implied. -/
theorem Statement.resultContext_not_implicit (s : Statement) :
    s.resultContext.isImplicit = false := by
  unfold resultContext
  split
  · split <;> rfl
  · split <;> rfl

/-- What an operation hands down is never left to be implied. -/
theorem OperationOf.bodyContext_not_implicit (o : Operation) :
    o.bodyContext.isImplicit = false := by
  unfold bodyContext
  split <;> rfl

/-- A branch is settled as the value of an assignment if it is as a statement. -/
theorem Statement.asBranch_settled {k : Expansion} {s : Statement} (n : Nat) (h : s.Settled k) :
    (s.asBranch n).Settled k ∧ (s.asBranch n).IsNamedBranch := by
  cases s with
  | action a =>
    cases a with
    | session t =>
      rw [asBranch]
      split
      · next named => exact ⟨h, named⟩
      · exact ⟨h, trivial⟩
    | pipe | doBlock | invoke => exact ⟨h, trivial⟩
  | _ => exact ⟨h, trivial⟩

/-- A statement of a sequence stays settled when it gets a name. -/
theorem Statement.withName_settled {k : Expansion} {s : Statement} (h : s.Settled k) :
    Yields (fun t ↦ t.Settled k ∧ t.IsNamed) (s.withName k) := by
  cases s with
  | action a =>
    cases a with
    | session t =>
      rw [withName]
      split
      · next name named => exact .pure ⟨h, by simp [IsNamed, named]⟩
      · exact .bind (.any _) fun name _ ↦
          .pure ⟨⟨h.arrow, h.context, h.backoff, h.model, h.skills, h.prompt⟩, rfl⟩
    | pipe | doBlock | invoke => exact .pure ⟨h, trivial⟩
  | _ => exact .pure ⟨h, trivial⟩

/-- What is not executable is no action. -/
theorem Statement.isNamedBranch_of_not_executable {s : Statement} (h : s.isExecutable = false) :
    s.IsNamedBranch := by
  cases s <;> trivial

mutual

private theorem Statement.canonical_settled (k : Expansion) {context : Context}
    (h : context.isImplicit = false) :
    (s : Statement) → Yields (Statement.Settled k) (s.canonical k context)
  | .comment _ | .importSkill _ | .agent _ | .throw _ => .pure trivial
  | .block ⟨_, _, body, _⟩ => .bind (canonicalBody_settled k rfl body) fun _ hb ↦ .pure hb
  | .binding _ ⟨_, value, _⟩ => .bind (value.canonical_settled k h) fun _ hv ↦ .pure hv
  | .assignment ⟨_, value, _⟩ => .bind (value.canonical_settled k h) fun _ hv ↦ .pure hv
  | .action a => .bind (a.canonical_settled k h) fun _ ha ↦ .pure ha
  | .parallel ⟨_, _, _, _, body, _⟩ =>
    .bind (canonicalBranches_settled k h 0 body) fun _ hb ↦
      .pure ⟨ParallelOf.withDefaults_hasDefaults _, hb⟩
  | .repeated ⟨_, _, body, _⟩ => .bind (canonicalBody_settled k h body) fun _ hb ↦ .pure hb
  | .forEach ⟨_, _, collection, _, _, _, body, _⟩ =>
    .bind (collection.canonical_settled k h) fun _ hc ↦
      .bind (canonicalBody_settled k h body) fun _ hb ↦ .pure ⟨hc, hb⟩
  | .loop ⟨_, _, _, _, body, _⟩ => .bind (canonicalBody_settled k h body) fun _ hb ↦ .pure hb
  | .attempt ⟨body, handler, cleanup, _⟩ =>
    .bind (canonicalBody_settled k h body) fun _ hb ↦
      .bind (canonicalHandler_settled k h handler) fun _ hh ↦
        .bind (canonicalClause_settled k h cleanup) fun _ hc ↦ .pure ⟨hb, hh, hc⟩
  | .choice ⟨_, options, _⟩ => .bind (canonicalOptions_settled k h options) fun _ ho ↦ .pure ho
  | .conditional ⟨branches, otherwise, _⟩ =>
    .bind (canonicalConditions_settled k h branches) fun _ hb ↦
      .bind (canonicalClause_settled k h otherwise) fun _ ho ↦ .pure ⟨hb, ho⟩

/-- Expansion settles the statements of a sequence, provided that their place has a context. -/
theorem canonicalBody_settled (k : Expansion) {context : Context}
    (h : context.isImplicit = false) :
    (body : List Statement) → Yields (BodySettled k) (canonicalBody k context body)
  | [] => .pure trivial
  | s :: body =>
    .bind (s.canonical_settled k h) fun _ hs ↦
      .bind (Statement.withName_settled hs) fun t ht ↦ by
        have next : (if t.isExecutable then t.resultContext else context).isImplicit = false := by
          split
          · exact t.resultContext_not_implicit
          · exact h
        exact .bind (canonicalBody_settled k next body) fun _ hb ↦ .pure ⟨ht.1, ht.2, hb⟩

private theorem canonicalBranches_settled (k : Expansion) {context : Context}
    (h : context.isImplicit = false) (n : Nat) :
    (body : List Statement) → Yields (BranchesSettled k) (canonicalBranches k context n body)
  | [] => .pure trivial
  | s :: body =>
    .bind (s.canonical_settled k h) fun t ht ↦ by
      split
      · have hb := Statement.asBranch_settled n ht
        exact .bind (canonicalBranches_settled k h (n + 1) body) fun _ hr ↦ .pure ⟨hb.1, hb.2, hr⟩
      · next he =>
        have hb := Statement.isNamedBranch_of_not_executable (Bool.not_eq_true _ ▸ he)
        exact .bind (canonicalBranches_settled k h n body) fun _ hr ↦ .pure ⟨ht, hb, hr⟩

private theorem canonicalHandler_settled (k : Expansion) {context : Context}
    (h : context.isImplicit = false) :
    (handler : Option Handler) → Yields (HandlerSettled k) (canonicalHandler k context handler)
  | none => .pure trivial
  | some ⟨_, body, _⟩ => .bind (canonicalBody_settled k h body) fun _ hb ↦ .pure hb

private theorem canonicalClause_settled (k : Expansion) {context : Context}
    (h : context.isImplicit = false) :
    (clause : Option Body) → Yields (ClauseSettled k) (canonicalClause k context clause)
  | none => .pure trivial
  | some ⟨body, _⟩ => .bind (canonicalBody_settled k h body) fun _ hb ↦ .pure hb

private theorem canonicalOptions_settled (k : Expansion) {context : Context}
    (h : context.isImplicit = false) :
    (options : List ChoiceOption) → Yields (OptionsSettled k) (canonicalOptions k context options)
  | [] => .pure trivial
  | ⟨_, body, _⟩ :: options =>
    .bind (canonicalBody_settled k h body) fun _ hb ↦
      .bind (canonicalOptions_settled k h options) fun _ ho ↦ .pure ⟨hb, ho⟩

private theorem canonicalConditions_settled (k : Expansion) {context : Context}
    (h : context.isImplicit = false) :
    (branches : List Branch) →
      Yields (ConditionsSettled k) (canonicalConditions k context branches)
  | [] => .pure trivial
  | ⟨_, _, body, _⟩ :: branches =>
    .bind (canonicalBody_settled k h body) fun _ hb ↦
      .bind (canonicalConditions_settled k h branches) fun _ ho ↦ .pure ⟨hb, ho⟩

private theorem Action.canonical_settled (k : Expansion) {context : Context}
    (h : context.isImplicit = false) :
    (a : Action) → Yields (Action.Settled k) (a.canonical k context)
  | .session s => .pure (k.session_settled s h)
  | .pipe ⟨input, operations, _⟩ =>
    .bind (input.canonical_settled k h) fun _ hi ↦
      .bind (canonicalOperations_settled k operations) fun _ ho ↦ .pure ⟨hi, ho⟩
  | .doBlock ⟨body, _⟩ => .bind (canonicalBody_settled k h body) fun _ hb ↦ .pure hb
  | .invoke ⟨_, args, _⟩ => .bind (canonicalValues_settled k h args) fun _ ha ↦ .pure ha

private theorem canonicalOperations_settled (k : Expansion) :
    (operations : List Operation) →
      Yields (OperationsSettled k) (canonicalOperations k operations)
  | [] => .pure trivial
  | ⟨operator, item, accumulator, body, span⟩ :: operations =>
    .bind (canonicalBody_settled k (OperationOf.bodyContext_not_implicit _) body) fun _ hb ↦
      .bind (canonicalOperations_settled k operations) fun _ ho ↦
        .pure ⟨⟨rfl, fun h ↦ by simp_all [OperationOf.accumulatorIdent?]⟩, hb, ho⟩

private theorem Expr.canonical_settled (k : Expansion) {context : Context}
    (h : context.isImplicit = false) :
    (e : Expr) → Yields (Expr.Settled k) (e.canonical k context)
  | .action a => .bind (a.canonical_settled k h) fun _ ha ↦ .pure ha
  | .array ⟨items, _⟩ => .bind (canonicalValues_settled k h items) fun _ hi ↦ .pure hi
  | .object ⟨entries, _⟩ => .bind (canonicalEntries_settled k h entries) fun _ he ↦ .pure he
  | .string _ | .number _ | .ident _ | .discretion _ => .pure trivial

private theorem canonicalValues_settled (k : Expansion) {context : Context}
    (h : context.isImplicit = false) :
    (es : List Expr) → Yields (ValuesSettled k) (canonicalValues k context es)
  | [] => .pure trivial
  | e :: es =>
    .bind (e.canonical_settled k h) fun _ he ↦
      .bind (canonicalValues_settled k h es) fun _ hs ↦ .pure ⟨he, hs⟩

private theorem canonicalEntries_settled (k : Expansion) {context : Context}
    (h : context.isImplicit = false) :
    (es : List Entry) → Yields (EntriesSettled k) (canonicalEntries k context es)
  | [] => .pure trivial
  | ⟨_, some value⟩ :: es =>
    .bind (value.canonical_settled k h) fun _ hv ↦
      .bind (canonicalEntries_settled k h es) fun _ hs ↦ .pure ⟨hv, hs⟩
  | ⟨_, none⟩ :: es => .bind (canonicalEntries_settled k h es) fun _ hs ↦ .pure hs

end

/-! ## What is settled stays as it is -/

private theorem Statement.asBranch_of_named (n : Nat) {s : Statement} (h : s.IsNamedBranch) :
    s.asBranch n = s := by
  cases s with
  | action a =>
    cases a with
    | session t =>
      have named : t.name.isSome := h
      simp [asBranch, named]
    | pipe | doBlock | invoke => exact h.elim
  | _ => rfl

private theorem Statement.withName_of_named (k : Expansion) {s : Statement} (h : s.IsNamed) :
    s.withName k = pure s := by
  cases s with
  | action a =>
    cases a with
    | session t =>
      obtain ⟨name, named⟩ := Option.isSome_iff_exists.1 h
      simp [withName, named]
    | pipe | doBlock | invoke => rfl
  | _ => rfl

private theorem ParallelOf.withDefaults_of_hasDefaults {p : Parallel} (h : p.HasDefaults) :
    p.withDefaults = p := by
  obtain ⟨join, hasJoin⟩ := Option.isSome_iff_exists.1 h.join
  obtain ⟨onFail, hasPolicy⟩ := Option.isSome_iff_exists.1 h.onFail
  have hasCount := h.count
  cases p with
  | mk _ _ count => cases count <;> simp_all [withDefaults]

private theorem OperationOf.itemIdent_of_hasNames {o : Operation} (h : o.HasNames) :
    some o.itemIdent = o.item := by
  obtain ⟨item, hasItem⟩ := Option.isSome_iff_exists.1 h.item
  simp [itemIdent, hasItem]

private theorem OperationOf.accumulatorIdent?_of_hasNames {o : Operation} (h : o.HasNames) :
    o.accumulatorIdent? = o.accumulator := by
  unfold accumulatorIdent?
  split
  · next reduces =>
    obtain ⟨accumulator, hasAccumulator⟩ := Option.isSome_iff_exists.1 (h.accumulator reduces)
    simp [hasAccumulator]
  · rfl

section

-- the theorems of a mutual block share the hypothesis, and some need it for the others only
set_option linter.unusedSectionVars false

variable {k k' : Expansion} (agents : k'.agents = k.agents)
include agents

private theorem Expansion.session_of_settled {s : Session} (context : Context) (h : s.Settled k) :
    k'.session context s = s := by
  have agent : k'.agentOf? s = k.agentOf? s := by simp [agentOf?, agents]
  have written : k'.withAgent s = s := by
    unfold withAgent
    rw [agent]
    split
    · rfl
    · next a ha =>
      have model := h.model a ha
      have skills := h.skills a ha
      have prompt := h.prompt a ha
      cases s with
      | mk _ p _ m ks =>
        cases p <;> cases m <;> cases ks <;> simp_all
  have backoff := h.backoff
  have arrow := h.arrow
  have context := h.context
  rw [session, written]
  cases s with
  | mk _ _ _ _ _ _ r b => cases r <;> cases b <;> simp_all

mutual

private theorem Statement.canonical_of_settled (context : Context) :
    (s : Statement) → s.Settled k → s.canonical k' context = pure s
  | .comment _, _ | .importSkill _, _ | .agent _, _ | .throw _, _ => rfl
  | .block ⟨_, _, body, _⟩, h => by
    simp only [Statement.canonical, canonicalBody_of_settled _ body h, pure_bind]
  | .binding _ ⟨_, value, _⟩, h => by
    simp only [Statement.canonical, value.canonical_of_settled context h, pure_bind]
  | .assignment ⟨_, value, _⟩, h => by
    simp only [Statement.canonical, value.canonical_of_settled context h, pure_bind]
  | .action a, h => by
    simp only [Statement.canonical, a.canonical_of_settled context h, pure_bind]
  | .parallel ⟨_, _, _, _, body, _⟩, h => by
    simp only [Statement.canonical, canonicalBranches_of_settled context 0 body h.2, pure_bind,
      ParallelOf.withDefaults_of_hasDefaults h.1]
  | .repeated ⟨_, _, body, _⟩, h => by
    simp only [Statement.canonical, canonicalBody_of_settled _ body h, pure_bind]
  | .forEach ⟨_, _, collection, _, _, _, body, _⟩, h => by
    simp only [Statement.canonical, collection.canonical_of_settled context h.1,
      canonicalBody_of_settled _ body h.2, pure_bind]
  | .loop ⟨_, _, _, _, body, _⟩, h => by
    simp only [Statement.canonical, canonicalBody_of_settled _ body h, pure_bind]
  | .attempt ⟨body, handler, cleanup, _⟩, h => by
    simp only [Statement.canonical, canonicalBody_of_settled _ body h.1,
      canonicalHandler_of_settled context handler h.2.1,
      canonicalClause_of_settled context cleanup h.2.2, pure_bind]
  | .choice ⟨_, options, _⟩, h => by
    simp only [Statement.canonical, canonicalOptions_of_settled context options h, pure_bind]
  | .conditional ⟨branches, otherwise, _⟩, h => by
    simp only [Statement.canonical, canonicalConditions_of_settled context branches h.1,
      canonicalClause_of_settled context otherwise h.2, pure_bind]

/-- Expansion leaves the statements of a settled sequence as they are. -/
theorem canonicalBody_of_settled (context : Context) :
    (body : List Statement) → BodySettled k body → canonicalBody k' context body = pure body
  | [], _ => rfl
  | s :: body, h => by
    simp only [canonicalBody, s.canonical_of_settled context h.1, pure_bind,
      Statement.withName_of_named _ h.2.1, canonicalBody_of_settled _ body h.2.2]

private theorem canonicalBranches_of_settled (context : Context) (n : Nat) :
    (body : List Statement) → BranchesSettled k body →
      canonicalBranches k' context n body = pure body
  | [], _ => rfl
  | s :: body, h => by
    simp only [canonicalBranches, s.canonical_of_settled context h.1, pure_bind,
      Statement.asBranch_of_named n h.2.1, canonicalBranches_of_settled context _ body h.2.2,
      ite_self]

private theorem canonicalHandler_of_settled (context : Context) :
    (handler : Option Handler) → HandlerSettled k handler →
      canonicalHandler k' context handler = pure handler
  | none, _ => rfl
  | some ⟨_, body, _⟩, h => by
    simp only [canonicalHandler, canonicalBody_of_settled _ body h, pure_bind]

private theorem canonicalClause_of_settled (context : Context) :
    (clause : Option Body) → ClauseSettled k clause →
      canonicalClause k' context clause = pure clause
  | none, _ => rfl
  | some ⟨body, _⟩, h => by
    simp only [canonicalClause, canonicalBody_of_settled _ body h, pure_bind]

private theorem canonicalOptions_of_settled (context : Context) :
    (options : List ChoiceOption) → OptionsSettled k options →
      canonicalOptions k' context options = pure options
  | [], _ => rfl
  | ⟨_, body, _⟩ :: options, h => by
    simp only [canonicalOptions, canonicalBody_of_settled _ body h.1,
      canonicalOptions_of_settled context options h.2, pure_bind]

private theorem canonicalConditions_of_settled (context : Context) :
    (branches : List Branch) → ConditionsSettled k branches →
      canonicalConditions k' context branches = pure branches
  | [], _ => rfl
  | ⟨_, _, body, _⟩ :: branches, h => by
    simp only [canonicalConditions, canonicalBody_of_settled _ body h.1,
      canonicalConditions_of_settled context branches h.2, pure_bind]

private theorem Action.canonical_of_settled (context : Context) :
    (a : Action) → a.Settled k → a.canonical k' context = pure a
  | .session s, h => by
    simp only [Action.canonical, Expansion.session_of_settled agents context h]
  | .pipe ⟨input, operations, _⟩, h => by
    simp only [Action.canonical, input.canonical_of_settled context h.1,
      canonicalOperations_of_settled operations h.2, pure_bind]
  | .doBlock ⟨body, _⟩, h => by
    simp only [Action.canonical, canonicalBody_of_settled _ body h, pure_bind]
  | .invoke ⟨_, args, _⟩, h => by
    simp only [Action.canonical, canonicalValues_of_settled context args h, pure_bind]

private theorem canonicalOperations_of_settled :
    (operations : List Operation) → OperationsSettled k operations →
      canonicalOperations k' operations = pure operations
  | [], _ => rfl
  | ⟨_, item, accumulator, body, _⟩ :: operations, h => by
    simp only [canonicalOperations, canonicalBody_of_settled _ body h.2.1,
      canonicalOperations_of_settled operations h.2.2, pure_bind]
    rw [OperationOf.itemIdent_of_hasNames h.1, OperationOf.accumulatorIdent?_of_hasNames h.1]

private theorem Expr.canonical_of_settled (context : Context) :
    (e : Expr) → e.Settled k → e.canonical k' context = pure e
  | .action a, h => by
    simp only [Expr.canonical, a.canonical_of_settled context h, pure_bind]
  | .array ⟨items, _⟩, h => by
    simp only [Expr.canonical, canonicalValues_of_settled context items h, pure_bind]
  | .object ⟨entries, _⟩, h => by
    simp only [Expr.canonical, canonicalEntries_of_settled context entries h, pure_bind]
  | .string _, _ | .number _, _ | .ident _, _ | .discretion _, _ => rfl

private theorem canonicalValues_of_settled (context : Context) :
    (es : List Expr) → ValuesSettled k es → canonicalValues k' context es = pure es
  | [], _ => rfl
  | e :: es, h => by
    simp only [canonicalValues, e.canonical_of_settled context h.1,
      canonicalValues_of_settled context es h.2, pure_bind]

private theorem canonicalEntries_of_settled (context : Context) :
    (es : List Entry) → EntriesSettled k es → canonicalEntries k' context es = pure es
  | [], _ => rfl
  | ⟨_, some value⟩ :: es, h => by
    simp only [canonicalEntries, value.canonical_of_settled context h.1,
      canonicalEntries_of_settled context es h.2, pure_bind]
  | ⟨_, none⟩ :: es, h => by
    simp only [canonicalEntries, canonicalEntries_of_settled context es h, pure_bind]

end

end

end ProseLang
