import ProseLang.Proofs.Validation.Usage

/-!
# Reports about unused bindings

A check reports a let or const binding just if its scope ends before the binding has been used or
taken to be used (`validate_unused`). The check marks bindings in the scopes that it carries along;
one step of it is compared to the usages that it passes (`Check.Counts`), and the comparison is put
together along the tree.
-/

namespace ProseLang

namespace Check

/-- Whether a check does nothing about the use of names: it leaves the scopes as they are and makes
no finding about unused bindings. -/
def Aside (c : Check Unit) : Prop :=
  ∀ σ : CheckState, (c.run σ).2.scopes = σ.scopes
    ∧ ∀ x, unusedFinding x ∈ (c.run σ).2.findings ↔ unusedFinding x ∈ σ.findings

namespace Aside

variable {c d : Check Unit}

private theorem pure : Aside (pure ()) := fun _ ↦ ⟨rfl, fun _ ↦ Iff.rfl⟩

private theorem seq (hc : Aside c) (hd : Aside d) : Aside (do c; d) := by
  intro σ
  obtain ⟨scopes, findings⟩ := hc σ
  obtain ⟨scopes', findings'⟩ := hd (c.run σ).2
  exact ⟨scopes'.trans scopes, fun x ↦ (findings' x).trans (findings x)⟩

private theorem note {issue : Issue} {span : Span} (h : issue.isUnused = false) :
    Aside (Check.note issue span) := by
  refine fun σ ↦ ⟨rfl, fun x ↦ List.mem_append.trans (or_iff_left ?_)⟩
  intro member
  have same : Issue.unusedBinding x.val = issue :=
    congrArg Finding.issue (List.mem_singleton.1 member)
  rw [← same] at h
  cases h

private theorem noteIf {condition : Bool} {issue : Issue} {span : Span}
    (h : issue.isUnused = false) : Aside (Check.noteIf condition issue span) := by
  cases condition with
  | true => exact note h
  | false => exact pure

private theorem forM {α : Type} {f : α → Check Unit} {xs : List α} (h : ∀ x, Aside (f x)) :
    Aside (xs.forM f) := by
  induction xs with
  | nil => exact pure
  | cons x xs ih => exact (h x).seq ih

private theorem optionForM {α : Type} {f : α → Check Unit} {x : Option α} (h : ∀ x, Aside (f x)) :
    Aside (x.forM f) := by
  cases x with
  | none => exact pure
  | some x => exact h x

private theorem model (k : Knowledge) (m : Ident) : Aside (Check.model k m) := noteIf rfl

private theorem skills (k : Knowledge) (names : List Ident) : Aside (Check.skills k names) :=
  forM fun _ ↦ noteIf rfl

private theorem unknownProperties (owner : PropertyOwner) (properties : List Property) :
    Aside (Check.unknownProperties owner properties) :=
  forM fun _ ↦ note rfl

private theorem agent (k : Knowledge) (a : Agent) : Aside (Check.agent k a) := by
  have permission (p : Property) : Aside (Check.permission p) := by
    rw [Check.permission]
    split
    · exact noteIf rfl
    · exact note rfl
  apply seq (noteIf rfl)
  apply seq (optionForM (model k))
  apply seq (skills k a.skills)
  apply seq (forM permission)
  exact unknownProperties .agent a.properties

private theorem importSkill (k : Knowledge) (p : Place) (i : Import) :
    Aside (Check.importSkill k p i) :=
  seq (noteIf rfl) (noteIf rfl)

private theorem parallel (p : Parallel) : Aside (Check.parallel p) := by
  have modifiers : Aside (Check.parallelModifiers p) := by
    apply seq (optionForM fun _ ↦ noteIf rfl)
    apply seq (optionForM fun _ ↦ noteIf rfl)
    apply seq (optionForM fun _ ↦ seq (noteIf rfl) (noteIf rfl))
    exact optionForM fun _ ↦ noteIf rfl
  exact modifiers.seq (noteIf rfl)

private theorem invocation (k : Knowledge) (i : Invocation) : Aside (Check.invocation k i) := by
  rw [Check.invocation]
  split
  · exact note rfl
  · exact noteIf rfl

end Aside

/-- Whether, from one state to another, the marks and the findings about unused bindings are those
that some usages make, with what names mean before and after. Marks count in the scopes that are
open before. -/
structure Counted (k : Knowledge) (Γ Γ' : Env) (us : List Usage) (σ σ' : CheckState) : Prop where
  means : σ'.scopes.Means Γ'
  proper : σ'.scopes.Proper
  depth : Γ.length ≤ Γ'.length
  used : ∀ n x, n < Γ.length → (σ'.scopes.usedAt n x = true
    ↔ σ.scopes.usedAt n x = true ∨ ∃ u ∈ us, u.Seen n x)
  unused : ∀ x, unusedFinding x ∈ σ'.findings
    ↔ unusedFinding x ∈ σ.findings
      ∨ k.options.warnOnUnusedBindings = true ∧ ∃ u ∈ us, u.Leaves Usage.Seen x

/-- Whether a check, where names mean `Γ`, counts some usages, and names mean `Γ'` after it. -/
def Counts (k : Knowledge) (c : Check Unit) (Γ Γ' : Env) (us : List Usage) : Prop :=
  ∀ σ : CheckState, σ.scopes.Means Γ → σ.scopes.Proper → Counted k Γ Γ' us σ (c.run σ).2

/-- A check that is not about the use of names, afterwards. -/
theorem Counted.aside {k : Knowledge} {Γ Γ' : Env} {us : List Usage} {σ σ' : CheckState}
    {c : Check Unit} (h : Counted k Γ Γ' us σ σ') (hc : Aside c) :
    Counted k Γ Γ' us σ (c.run σ').2 := by
  obtain ⟨scopes, findings⟩ := hc σ'
  refine ⟨scopes ▸ h.means, scopes ▸ h.proper, h.depth, ?_, fun x ↦ (findings x).trans (h.unused x)⟩
  rw [scopes]
  exact h.used

namespace Counts

variable {k : Knowledge} {Γ Γ' Δ : Env} {c d : Check Unit} {us vs : List Usage}

private theorem aside (h : Aside c) : Counts k c Γ Γ [] := by
  intro σ means proper
  obtain ⟨scopes, findings⟩ := h σ
  refine ⟨scopes ▸ means, scopes ▸ proper, Nat.le_refl _, fun n x _ ↦ ?_, fun x ↦ ?_⟩
  · rw [scopes]
    simp
  · rw [findings]
    simp

private theorem pure (Γ : Env) : Counts k (pure ()) Γ Γ [] := aside .pure

/-- One check after another. -/
theorem seq (hc : Counts k c Γ Γ' us) (hd : Counts k d Γ' Δ vs) :
    Counts k (do c; d) Γ Δ (us ++ vs) := by
  intro σ means proper
  have first := hc σ means proper
  have second := hd (c.run σ).2 first.means first.proper
  refine ⟨second.means, second.proper, Nat.le_trans first.depth second.depth, ?_, ?_⟩
  · intro n x inside
    rw [exists_mem_append, ← or_assoc, ← first.used n x inside]
    exact second.used n x (Nat.lt_of_lt_of_le inside first.depth)
  · intro x
    rw [exists_mem_append, and_or_left, ← or_assoc, ← first.unused x]
    exact second.unused x

/-- A check that is not about the use of names before another. -/
theorem quiet (hc : Aside c) (hd : Counts k d Γ Δ vs) : Counts k (do c; d) Γ Δ vs :=
  (aside hc).seq hd

/-- A check before another that counts nothing. -/
theorem done (hc : Counts k c Γ Γ' us) (hd : Counts k d Γ' Δ []) : Counts k (do c; d) Γ Δ us := by
  have both := hc.seq hd
  rwa [List.append_nil] at both

private theorem optionForM {α : Type} {f : α → Check Unit} {x : Option α} {us : α → List Usage}
    (h : ∀ x, Counts k (f x) Γ Γ (us x)) : Counts k (x.forM f) Γ Γ (x.toList.flatMap us) := by
  cases x with
  | none => exact .pure Γ
  | some x =>
    rw [Option.toList_some, List.flatMap_singleton]
    exact h x

/-- The mark of a name, for a usage that counts as one. -/
theorem markUsed {name : String} {u : Usage}
    (seen : ∀ n x, u.Seen n x ↔ name = x ∧ Γ.holder? x = some n)
    (open_ : ∀ x, ¬ u.Leaves Usage.Seen x) : Counts k (Check.markUsed name) Γ Γ [u] := by
  intro σ means proper
  refine ⟨means.markUsed name, proper.markUsed name, Nat.le_refl _, fun n x _ ↦ ?_, fun x ↦ ?_⟩
  · simp only [List.mem_singleton, exists_eq_left, seen]
    exact Scopes.usedAt_markUsed means name n x
  · simp only [List.mem_singleton, exists_eq_left, open_, and_false, or_false]
    exact Iff.rfl

private theorem use (name : String) : Counts k (Check.markUsed name) Γ Γ [.use Γ name] :=
  markUsed (fun _ _ ↦ or_iff_left id) fun _ ↦ id

private theorem implied (name : String) : Counts k (Check.markUsed name) Γ Γ [.implied Γ name] :=
  markUsed (fun _ _ ↦ or_iff_right id) fun _ ↦ id

private theorem useEach (names : List String) :
    Counts k (names.forM Check.markUsed) Γ Γ (names.map (.use Γ)) := by
  induction names with
  | nil => exact .pure Γ
  | cons name names ih => exact (use name).seq ih

private theorem implyEach (names : List String) :
    Counts k (names.forM Check.markUsed) Γ Γ (names.map (.implied Γ)) := by
  induction names with
  | nil => exact .pure Γ
  | cons name names ih => exact (implied name).seq ih

/-- The use of a name marks what the name stands for, if it stands for anything. -/
theorem useName (how : NameUse) (name : Ident) :
    Counts k (Check.useName how name) Γ Γ [.use Γ name.val] := by
  have report (bound : Bool) (meaning : bound = (Γ.locate name.val).isSome) :
      Counts k (if bound then Check.markUsed name.val
        else Check.note (.undefinedVariable name.val how) name.span) Γ Γ [.use Γ name.val] := by
    cases bound with
    | true => exact use name.val
    | false =>
      have unbound : Γ.locate name.val = none :=
        Option.isNone_iff_eq_none.1 (Option.isSome_eq_false_iff.1 meaning.symm)
      have free : Γ.holder? name.val = none := by
        rw [Env.holder?, unbound]
        rfl
      have quiet : Counts k (Check.note (.undefinedVariable name.val how) name.span) Γ Γ [] :=
        aside (.note rfl)
      intro σ means proper
      have noted := quiet σ means proper
      refine { noted with used := fun n x inside ↦ ?_, unused := fun x ↦ ?_ }
      · refine (noted.used n x inside).trans (or_congr_right (iff_of_false (by simp) ?_))
        simp only [List.mem_singleton, exists_eq_left, Usage.Seen, Usage.Uses, Usage.Implies,
          or_false]
        rintro ⟨rfl, held⟩
        rw [free] at held
        cases held
      · refine (noted.unused x).trans (or_congr_right (iff_of_false (by simp) ?_))
        simp [Usage.Leaves]
  intro σ means proper
  have bound : σ.scopes.binds name.val = (Γ.locate name.val).isSome := by
    rw [means.binds, Env.isSome_locate]
  exact report _ bound σ means proper

private theorem string (s : StringLit) : Counts k (Check.string s) Γ Γ (s.usages Γ) := by
  rw [Check.string, StringLit.usages]
  induction s.interpolations with
  | nil => exact .pure Γ
  | cons name names ih => exact (useName .interpolation name).seq ih

private theorem context (x : Context) :
    Counts k (Check.context x) Γ Γ (x.names.map fun name ↦ .use Γ name.val) := by
  rw [Check.context]
  induction x.names with
  | nil => exact .pure Γ
  | cons name names ih => exact (useName .context name).seq ih

/-- A declaration marks nothing. -/
theorem declare (name : Ident) (kind : SymbolKind) (written : Bool) :
    Counts k (Check.declare name kind written) Γ (Γ.bind name kind) [] := by
  intro σ means proper
  let y : Symbol := { name := name.val, kind, span := name.span }
  have unmarked := σ.scopes.usedAt_declare (y := y) rfl
  have properly := proper.declare y
  have after := means.declare name kind
  have depth : Γ.length ≤ (Γ.bind name kind).length := by
    rw [Env.bind, List.length_cons, List.length_tail]
    omega
  have declared : Counted k Γ (Γ.bind name kind) [] σ
      { σ with scopes := (σ.scopes.declare y).1 } :=
    ⟨after, properly, depth, fun n x _ ↦ by simp [unmarked n x], fun x ↦ by simp⟩
  rw [Check.declare]
  simp only [StateT.run_bind, StateT.run_get, StateT.run_set, pure_bind]
  split
  · exact declared.aside .pure
  · apply declared.aside
    apply Aside.note
    split <;> rfl
  · exact declared.aside (.noteIf rfl)

/-- The names of a construct are declared in their order. -/
theorem declareLocals (ls : List Local) :
    Counts k (Check.declareLocals ls) Γ (ls.foldl (fun Δ l ↦ Env.bind Δ l.name l.kind) Γ) [] := by
  induction ls generalizing Γ with
  | nil => exact .pure Γ
  | cons l ls ih => exact (declare l.name l.kind l.written).seq ih

/-- A scope that ends is criticised for its bindings without a mark. -/
theorem unusedFinding_mem {s : Scope} (proper : (s.map Symbol.name).Nodup) (x : Ident) :
    unusedFinding x ∈ unusedFindings k s
      ↔ k.options.warnOnUnusedBindings = true
        ∧ ∃ y, s.find? x.val = some y ∧ y.kind.isBinding = true ∧ y.span = x.span
          ∧ y.used = false := by
  rw [unusedFindings]
  split
  · next warned =>
    rw [and_iff_right warned]
    constructor
    · intro member
      obtain ⟨y, among, same⟩ := List.mem_map.1 member
      obtain ⟨listed, idle⟩ := List.mem_filter.1 among
      have inScope : y ∈ s := (k.enumeration.perm s).mem_iff.1 listed
      obtain ⟨binding, unused⟩ := Bool.and_eq_true_iff.1 idle
      obtain ⟨name, span⟩ := Finding.mk.inj same
      have named : y.name = x.val := Issue.unusedBinding.inj name
      exact ⟨y, named ▸ Scope.find?_of_mem proper inScope, binding, span, by simpa using unused⟩
    · rintro ⟨y, found, binding, span, unused⟩
      have named : y.name = x.val := by simpa using List.find?_some found
      have listed := (k.enumeration.perm s).mem_iff.2 (List.mem_of_find?_eq_some found)
      refine List.mem_map.2 ⟨y, List.mem_filter.2 ⟨listed, ?_⟩, ?_⟩
      · simp [binding, unused]
      · rw [unusedFinding, named, span]
  · next silent => exact iff_of_false List.not_mem_nil fun h ↦ silent h.1

/-- A scope is left with what has been marked around it, and with what is said about its own
bindings. -/
theorem inScope {ls : List Local} {kind : SymbolKind} {names : List Ident}
    (locals : ls.foldl (fun Δ l ↦ Env.bind Δ l.name l.kind) (Env.emptyScope :: Γ)
      = Γ.enter kind names)
    (body : Counts k c (Γ.enter kind names) Δ us) (left : Δ.tail = Γ) :
    Counts k (Check.inScope k ls c) Γ Γ (Usage.closing Δ us) := by
  intro σ means proper
  have opened : Counts k (do Check.declareLocals ls; c) (Env.emptyScope :: Γ) Δ us := by
    have declared : Counts k (Check.declareLocals ls) (Env.emptyScope :: Γ)
      (Γ.enter kind names) [] := by
      rw [← locals]
      exact declareLocals ls
    exact declared.seq body
  have inner := opened (Check.openScope.run σ).2 means.openScope
    (List.forall_mem_cons.2 ⟨List.nodup_nil, proper⟩)
  change Counted k Γ Γ _ σ ((Check.closeScope k).run
    ((do Check.declareLocals ls; c).run (Check.openScope.run σ).2).2).2
  generalize ((do Check.declareLocals ls; c).run (Check.openScope.run σ).2).2 = τ at inner ⊢
  rcases τ with ⟨ss, findings⟩
  obtain ⟨means', proper', depth, used, unused⟩ := inner
  dsimp only at means' proper' used unused
  cases means' with
  | nil => exact absurd depth (Nat.not_succ_le_zero _)
  | @cons s ss scope Δ head tail =>
    obtain rfl : Δ = Γ := left
    obtain ⟨properly, rest⟩ := List.forall_mem_cons.1 proper'
    have around : σ.scopes.length = ss.length := means.length.trans tail.length.symm
    refine ⟨tail, rest, Nat.le_refl _, fun n x inside ↦ ?_, fun x ↦ ?_⟩
    · have other : n ≠ ss.length := tail.length ▸ Nat.ne_of_lt inside
      have marked := used n x (Nat.lt_succ_of_lt inside)
      change Scopes.usedAt (s :: ss) n x = true ↔ Scopes.usedAt ([] :: σ.scopes) n x = true
        ∨ _ at marked
      rw [Scopes.usedAt, Scopes.usedAt, if_neg other, around, if_neg other] at marked
      have ended : ¬ ∃ u ∈ [Usage.ends (scope :: Δ) us], u.Seen n x := by
        simp [Usage.Seen, Usage.Uses, Usage.Implies]
      rw [Usage.closing, exists_mem_append, or_iff_left ended]
      exact marked
    · have marked := used ss.length x.val (by rw [tail.length]; exact Nat.lt_succ_self _)
      change Scopes.usedAt (s :: ss) ss.length x.val = true
        ↔ Scopes.usedAt ([] :: σ.scopes) ss.length x.val = true ∨ _ at marked
      rw [Scopes.usedAt, Scopes.usedAt, if_pos rfl, around, if_pos rfl] at marked
      have idle : (∃ y, s.find? x.val = some y ∧ y.kind.isBinding = true ∧ y.span = x.span
          ∧ y.used = false) ↔ Usage.Leaves Usage.Seen x (.ends (scope :: Δ) us) := by
        rw [Usage.Leaves, Env.Declares, List.tail_cons, ← tail.length, List.headD_cons, ← head,
          s.idle_iff x, marked.trans (or_iff_right Bool.false_ne_true)]
      change unusedFinding x ∈ findings ++ unusedFindings k s ↔ _
      rw [List.mem_append, unused x, unusedFinding_mem properly, idle, Usage.closing,
        exists_mem_append, and_or_left, or_assoc]
      simp only [List.mem_singleton, exists_eq_left]
      exact Iff.rfl

/-- A body with a scope of its own. -/
theorem body {ls : List Local} {kind : SymbolKind} {names : List Ident} {inner : List Statement}
    (locals : ls.foldl (fun Δ l ↦ Env.bind Δ l.name l.kind) (Env.emptyScope :: Γ)
      = Γ.enter kind names)
    (h : Counts k c (Γ.enter kind names) (bodyEnvAfter false (Γ.enter kind names) inner) us) :
    Counts k (Check.inScope k ls c) Γ Γ
      (Usage.closing (bodyEnvAfter false (Γ.enter kind names) inner) us) := by
  apply inScope locals h
  rw [tail_bodyEnvAfter, Env.tail_enter]

/-- What is handed down to a session is not counted. -/
theorem besides (h : Counts k c Γ Γ' us) (isOpen : Bool) (given : Given) :
    Counts k c Γ Γ' (us ++ if isOpen then [.handed Γ given] else []) := by
  cases isOpen with
  | false =>
    rw [if_neg Bool.false_ne_true, List.append_nil]
    exact h
  | true =>
    intro σ means proper
    have counted := h σ means proper
    refine { counted with used := fun n x inside ↦ ?_, unused := fun x ↦ ?_ }
    · rw [counted.used n x inside]
      simp [or_and_right, exists_or, Usage.Seen, Usage.Uses, Usage.Implies]
    · rw [counted.unused x]
      simp [or_and_right, exists_or, Usage.Leaves]

/-- A session uses the names in its prompt and in its context. -/
theorem session (given : Given) (s : Session) :
    Counts k (Check.session k s) Γ Γ (SessionOf.usages Γ given s) := by
  apply besides
  apply quiet (.noteIf rfl)
  apply quiet (.optionForM fun _ ↦ .noteIf rfl)
  apply quiet (.optionForM (.model k))
  apply quiet (.skills k _)
  apply quiet (.optionForM fun _ ↦ .noteIf rfl)
  apply quiet (.optionForM fun _ ↦ .noteIf rfl)
  apply quiet (.unknownProperties .session s.properties)
  exact (optionForM string).seq (context s.context)

/-- A branch may introduce the name that it assigns. -/
theorem assignment (p : Place) (name : Ident) (span : Span) :
    Counts k (Check.assignment p name span) Γ
      (if p.isBranch && (Γ.resolve name.val).isNone then Γ.bind name .branch else Γ) [] := by
  intro σ means proper
  have meaning := means.lookup? name.val
  rw [Check.assignment]
  simp only [StateT.run_bind, StateT.run_get, pure_bind]
  cases target : σ.scopes.lookup? name.val with
  | none =>
    rw [target] at meaning
    rw [← meaning]
    cases p.isBranch with
    | true => exact declare name .branch true σ means proper
    | false => exact aside (.note rfl) σ means proper
  | some x =>
    rw [target] at meaning
    rw [← meaning, Option.map_some, Option.isNone_some, Bool.and_false]
    rcases x with ⟨_, kind, declared, _⟩
    cases kind
    case constant | session => exact aside (.note rfl) σ means proper
    all_goals exact aside .pure σ means proper

end Counts

mutual

/-- The check of a statement. -/
theorem statement_counts (k : Knowledge) (p : Place) (Γ : Env) (given : Given) :
    (s : Statement) →
      Counts k (statement k p s) Γ (s.envAfter p.isBranch Γ) (s.usages p Γ given)
  | .comment _ => .pure Γ
  | .importSkill i => .aside (.importSkill k p i)
  | .agent a => .aside (.agent k a)
  | .block ⟨_, params, body, _⟩ => by
    rw [statement, Statement.usages]
    exact .body (locals_params Γ params) (statements_counts k p.inBody [] _ {} body)
  | .binding kind ⟨name, value, _⟩ => by
    rw [statement, Statement.envAfter, Statement.usages]
    apply Counts.done (expr_counts k p Γ given value)
    cases kind
    · exact .declare name .variable true
    · exact .declare name .constant true
  | .assignment ⟨name, value, span⟩ => by
    rw [statement, Statement.envAfter, Statement.usages]
    exact (expr_counts k p Γ given value).done (.assignment p name span)
  | .action (.session s) => by
    rw [statement, Statement.envAfter, Statement.usages]
    apply Counts.done (action_counts k p Γ given (.session s))
    cases s.name with
    | none => exact .pure Γ
    | some name => exact .declare name .session true
  | .action (.pipe x) => by
    rw [Statement.usages]
    exact (action_counts k p Γ given (.pipe x)).done (.pure Γ)
  | .action (.doBlock b) => by
    rw [Statement.usages]
    exact (action_counts k p Γ given (.doBlock b)).done (.pure Γ)
  | .action (.invoke i) => by
    rw [Statement.usages]
    exact (action_counts k p Γ given (.invoke i)).done (.pure Γ)
  | .parallel ⟨join, onFail, count, keys, body, span⟩ => by
    rw [statement, Statement.envAfter, Statement.usages]
    exact .quiet (.parallel _) (statements_counts k p.branches [] Γ given body)
  | .repeated ⟨count, index, body, _⟩ => by
    rw [statement, Statement.usages]
    apply Counts.quiet (.noteIf rfl)
    exact .body (locals_asBinding Γ index) (statements_counts k p.inBody [] _ _ body)
  | .forEach ⟨item, index, collection, _, _, _, body, _⟩ => by
    rw [statement, Statement.usages]
    apply Counts.seq (expr_counts k p Γ given collection)
    exact .body (locals_forEach Γ item index) (statements_counts k p.inBody [] _ _ body)
  | .loop ⟨condition, maxIterations, index, _, body, span⟩ => by
    rw [statement, Statement.usages]
    apply Counts.quiet (.noteIf rfl)
    exact .body (locals_asBinding Γ index) (statements_counts k p.inBody [] _ _ body)
  | .attempt ⟨body, handler, cleanup, _⟩ => by
    rw [statement, Statement.usages, List.append_assoc]
    apply Counts.seq (.body rfl (statements_counts k p.inBody [] _ given body))
    exact (handlerBody_counts k p Γ given handler).seq (clauseBody_counts k p Γ given cleanup)
  | .throw ⟨some message, _⟩ => by
    rw [statement, Statement.usages, Option.toList_some, List.flatMap_singleton]
    exact .string message
  | .throw ⟨none, _⟩ => by
    rw [statement, Statement.usages]
    exact .aside (.noteIf rfl)
  | .choice ⟨_, options, _⟩ => by
    rw [statement, Statement.usages]
    exact optionBodies_counts k p Γ given options
  | .conditional ⟨branches, otherwise, _⟩ => by
    rw [statement, Statement.usages]
    exact (branchBodies_counts k p Γ given branches).seq (clauseBody_counts k p Γ given otherwise)

/-- The check of statements, each of which sees what the ones before it declare. -/
theorem statements_counts (k : Knowledge) (p : Place) (before : List String) (Γ : Env)
    (given : Given) :
    (body : List Statement) →
      Counts k (statements k p before body) Γ (bodyEnvAfter p.isBranch Γ body)
        (bodyUsages p Γ before given body)
  | [] => by
    rw [statements, bodyUsages]
    split
    · exact .useEach before
    · exact .pure Γ
  | s :: body => by
    rw [statements, bodyEnvAfter, bodyUsages, List.append_assoc]
    have rest (before : List String) (given : Given) :=
      statements_counts k (p.past s) before (s.envAfter p.isBranch Γ) given body
    rw [Place.isBranch_past] at rest
    have all (before : List String) (next : Given) :=
      (statement_counts k p Γ given s).seq (rest before next)
    split
    · exact (Counts.implyEach before).seq (all _ _)
    · exact all _ _

private theorem handlerBody_counts (k : Knowledge) (p : Place) (Γ : Env) (given : Given) :
    (h : Option Handler) → Counts k (handlerBody k p h) Γ Γ (handlerUsages p Γ given h)
  | none => .pure Γ
  | some ⟨error, body, _⟩ => by
    rw [handlerBody, handlerUsages]
    exact .body (locals_asBinding Γ error) (statements_counts k p.handling [] _ _ body)

private theorem clauseBody_counts (k : Knowledge) (p : Place) (Γ : Env) (given : Given) :
    (c : Option Body) → Counts k (clauseBody k p c) Γ Γ (clauseUsages p Γ given c)
  | none => .pure Γ
  | some ⟨body, _⟩ => by
    rw [clauseBody, clauseUsages]
    exact .body rfl (statements_counts k p.inBody [] _ given body)

private theorem optionBodies_counts (k : Knowledge) (p : Place) (Γ : Env) (given : Given) :
    (options : List ChoiceOption) →
      Counts k (optionBodies k p options) Γ Γ (optionUsages p Γ given options)
  | [] => .pure Γ
  | ⟨label, body, _⟩ :: options => by
    rw [optionBodies, optionUsages, List.append_assoc]
    apply Counts.seq (.string label)
    apply Counts.seq (.body rfl (statements_counts k p.inBody [] _ given body))
    exact optionBodies_counts k p Γ given options

private theorem branchBodies_counts (k : Knowledge) (p : Place) (Γ : Env) (given : Given) :
    (branches : List Branch) →
      Counts k (branchBodies k p branches) Γ Γ (conditionUsages p Γ given branches)
  | [] => .pure Γ
  | ⟨_, _, body, _⟩ :: branches => by
    rw [branchBodies, conditionUsages]
    apply Counts.seq (.body rfl (statements_counts k p.inBody [] _ given body))
    exact branchBodies_counts k p Γ given branches

/-- The check of an action. -/
theorem action_counts (k : Knowledge) (p : Place) (Γ : Env) (given : Given) :
    (a : Action) → Counts k (action k p a) Γ Γ (a.usages p Γ given)
  | .session s => .session given s
  | .pipe ⟨input, operations, _⟩ => by
    rw [action, Action.usages]
    exact (expr_counts k p Γ given input).seq (operationBodies_counts k p Γ operations)
  | .doBlock ⟨body, _⟩ => by
    rw [action, Action.usages]
    exact .body rfl (statements_counts k p.inBody [] _ given body)
  | .invoke ⟨name, args, span⟩ => by
    rw [action, Action.usages]
    exact (exprs_counts k p Γ given args).done (.aside (.invocation k ⟨name, args, span⟩))

private theorem operationBodies_counts (k : Knowledge) (p : Place) (Γ : Env) :
    (operations : List Operation) →
      Counts k (operationBodies k p operations) Γ Γ (operationUsages p Γ operations)
  | [] => .pure Γ
  | ⟨operator, item, accumulator, body, span⟩ :: operations => by
    rw [operationBodies, operationUsages]
    apply Counts.seq (.body (locals_operation Γ _) (statements_counts k p.inBody [] _ _ body))
    exact operationBodies_counts k p Γ operations

/-- The check of a value. -/
theorem expr_counts (k : Knowledge) (p : Place) (Γ : Env) (given : Given) :
    (e : Expr) → Counts k (expr k p e) Γ Γ (e.usages p Γ given)
  | .action a => action_counts k p Γ given a
  | .string s => .string s
  | .number _ | .discretion _ => .pure Γ
  | .ident name => .useName .value name
  | .array ⟨items, _⟩ => exprs_counts k p Γ given items
  | .object ⟨es, _⟩ => entries_counts k p Γ given es

private theorem exprs_counts (k : Knowledge) (p : Place) (Γ : Env) (given : Given) :
    (es : List Expr) → Counts k (exprs k p es) Γ Γ (valueUsages p Γ given es)
  | [] => .pure Γ
  | e :: es => by
    rw [exprs, valueUsages]
    exact (expr_counts k p Γ given e).seq (exprs_counts k p Γ given es)

private theorem entries_counts (k : Knowledge) (p : Place) (Γ : Env) (given : Given) :
    (es : List Entry) → Counts k (entries k p es) Γ Γ (entryUsages p Γ given es)
  | [] => .pure Γ
  | ⟨_, some value⟩ :: es => by
    rw [entries, entryUsages]
    exact (expr_counts k p Γ given value).seq (entries_counts k p Γ given es)
  | ⟨key, none⟩ :: es => by
    rw [entries, entryUsages]
    exact (Counts.useName .value key).seq (entries_counts k p Γ given es)

end

end Check

/-! ## Reports -/

/-- A program is found to be criticised for the bindings that are neither used nor taken to be
used. -/
theorem unusedFinding_mem_rawFindings (p : Program) (options : ValidatorOptions) (x : Ident) :
    unusedFinding x ∈ rawFindings p options
      ↔ options.warnOnUnusedBindings = true ∧ ∃ u ∈ p.usages, u.Leaves Usage.Seen x := by
  let k : Knowledge := { options, definitions := .ofProgram p }
  let start := k.definitions.findings
    ++ if options.warnOnTodoComments then commentFindings p.comments else []
  have definitions : unusedFinding x ∉ k.definitions.findings := by
    simp [Definitions.findings, unusedFinding]
  have comments : unusedFinding x
      ∉ (if options.warnOnTodoComments then commentFindings p.comments else []) := by
    split
    · simp [commentFindings, unusedFinding]
    · exact List.not_mem_nil
  have none : unusedFinding x ∉ start := fun member ↦
    (List.mem_append.1 member).elim definitions comments
  -- the program as a whole is checked like a body with a scope of its own
  have checked : Check.Counts k (Check.inScope k [] (Check.statements k {} [] p.statements)) [] []
      (Usage.closing (bodyEnvAfter false (Env.enter [] .bodyLocal []) p.statements)
        (bodyUsages {} (Env.enter [] .bodyLocal []) [] {} p.statements)) :=
    .body rfl (Check.statements_counts k {} [] _ {} p.statements)
  have none_open : Scopes.Proper [] := fun _ member ↦ absurd member List.not_mem_nil
  have counted := checked { scopes := [], findings := start } .nil none_open
  exact (counted.unused x).trans (or_iff_right none)

/-- A binding that is not used is a warning. -/
theorem unusedFinding_mem_warnings {p : Program} {options : ValidatorOptions} {x : Ident} :
    unusedFinding x ∈ (validate p options).warnings ↔ unusedFinding x ∈ rawFindings p options := by
  rw [validate, List.mem_filter, List.mem_mergeSort]
  exact and_iff_left rfl

/-- A program is warned about for the bindings that are neither used nor taken to be used before
their scopes end. -/
theorem validate_unused (p : Program) (options : ValidatorOptions) (x : Ident) :
    unusedFinding x ∈ (validate p options).warnings
      ↔ options.warnOnUnusedBindings = true ∧ ∃ u ∈ p.usages, u.Leaves Usage.Seen x :=
  unusedFinding_mem_warnings.trans (unusedFinding_mem_rawFindings p options x)

end ProseLang
