import ProseLang.Proofs.Canonical.Growth
import ProseLang.Proofs.Canonical.Settled

/-!
# What expansion adds

What expansion writes out is valid where it is put: a context names what is bound before it
(`Statement.resultContext_boundIn`), settings come from agents that were checked
(`Expansion.session_valid`), and the names of results are new (`Statement.withName_valid`,
`Statement.asBranch_valid`). Each is stated over two environments, that of the original program and
that of the canonical one, which grows from the first (`Env.Grows`).
-/

namespace ProseLang

/-- Whether what a step of expansion gives, from a count `n` of names on, has a property together
with the count after it, which is no smaller. -/
def Expands {α : Type} (n : Nat) (P : α → Nat → Prop) (x : Expand α) : Prop :=
  n ≤ (x.run n).2 ∧ P (x.run n).1 (x.run n).2

namespace Expands

variable {α β : Type} {n : Nat} {P : α → Nat → Prop} {Q : β → Nat → Prop}

/-- A step that gives no name keeps the count. -/
theorem pure {a : α} (h : P a n) : Expands n P (pure a) := ⟨Nat.le_refl n, h⟩

/-- One step after another, from the count of names where the first one stops. -/
theorem bind {x : Expand α} {f : α → Expand β} (hx : Expands n P x)
    (hf : ∀ a m, n ≤ m → P a m → Expands m Q (f a)) : Expands n Q (x >>= f) := by
  obtain ⟨le, first⟩ := hx
  obtain ⟨le', second⟩ := hf _ _ le first
  exact ⟨Nat.le_trans le le', second⟩

/-- What holds whatever the count of names is holds besides. -/
theorem also {R : α → Prop} {x : Expand α} (hx : Expands n P x) (hr : Yields R x) :
    Expands n (fun a m ↦ P a m ∧ R a) x := ⟨hx.1, hx.2, hr n⟩

end Expands

/-! ## Contexts -/

/-- Whether the names of a context mean something. -/
def Context.BoundIn (Γ : Env) (c : Context) : Prop := ∀ name ∈ c.names, Γ.Binds name

/-- There are no names in the empty context. -/
theorem Context.boundIn_empty (Γ : Env) : Context.empty.BoundIn Γ := nofun

/-- What means something outside of a scope does so inside. -/
theorem Context.BoundIn.enter {Γ : Env} {c : Context} (h : c.BoundIn Γ) (kind : SymbolKind)
    (names : List Ident) : c.BoundIn (Γ.enter kind names) :=
  fun name member ↦ Env.binds_enter kind names (h name member)

/-- What an action as a statement declares. -/
theorem Statement.envAfter_action (isBranch : Bool) (Γ : Env) (a : Action) :
    (Statement.action a).envAfter isBranch Γ
      = (a.resultName?.map fun name ↦ Γ.bind name .session).getD Γ := by
  cases a with
  | session s =>
    rw [Statement.envAfter, Action.resultName?]
    cases s.name <;> rfl
  | _ => rfl

mutual

/-- What means something before a statement does so after it. -/
theorem Statement.binds_envAfter {isBranch : Bool} {Γ : Env} {name : Ident} (h : Γ.Binds name) :
    (s : Statement) → (s.envAfter isBranch Γ).Binds name
  | .binding kind ⟨other, _, _⟩ => Env.binds_bind other kind.symbolKind h
  | .assignment ⟨other, _, _⟩ => by
    rw [Statement.envAfter]
    split
    · exact Env.binds_bind other .branch h
    · exact h
  | .action a => by
    rw [Statement.envAfter_action]
    cases a.resultName? with
    | none => exact h
    | some other => exact Env.binds_bind other .session h
  | .parallel ⟨_, _, _, _, body, _⟩ => binds_bodyEnvAfter h body
  | .comment _ | .importSkill _ | .agent _ | .block _ | .repeated _ | .forEach _ | .loop _
  | .attempt _ | .throw _ | .choice _ | .conditional _ => h

/-- What means something before statements does so after them. -/
theorem binds_bodyEnvAfter {isBranch : Bool} {Γ : Env} {name : Ident} (h : Γ.Binds name) :
    (body : List Statement) → (bodyEnvAfter isBranch Γ body).Binds name
  | [] => h
  | s :: body => binds_bodyEnvAfter (s.binds_envAfter h) body

end

/-- The name of the result of a valid statement means something after it. -/
theorem Statement.binds_boundName {k : Knowledge} {p : Place} {Γ : Env} {s : Statement}
    {name : Ident} (valid : s.Valid k p Γ) (h : s.boundName? = some name) :
    (s.envAfter p.isBranch Γ).Binds name := by
  cases s with
  | binding kind b =>
    obtain rfl : b.name = name := Option.some.inj h
    exact Env.binds_bind_self Γ b.name kind.symbolKind
  | assignment a =>
    rcases a with ⟨other, value, span⟩
    obtain rfl : other = name := Option.some.inj h
    obtain ⟨-, assigns⟩ := valid
    rw [envAfter]
    split
    · exact Env.binds_bind_self Γ other .branch
    · next old =>
      cases branch : p.isBranch with
      | false => exact assigns.bound branch
      | true => simpa [branch, Env.Binds, Option.isSome_iff_ne_none] using old
  | action a =>
    have result : a.resultName? = some name := by
      cases a with
      | session s => exact h
      | _ => cases h
    rw [envAfter_action, result]
    exact Env.binds_bind_self Γ name .session
  | _ => cases h

/-- The names of the results of valid statements mean something after them. -/
theorem binds_bodyEnvAfter_of_mem {k : Knowledge} {p : Place} {Γ : Env} {body : List Statement}
    {s : Statement} {name : Ident} (valid : BodyValid k p Γ body) (member : s ∈ body)
    (h : s.boundName? = some name) : (bodyEnvAfter p.isBranch Γ body).Binds name := by
  induction body generalizing p Γ with
  | nil => cases member
  | cons t body ih =>
    obtain ⟨first, rest⟩ := valid
    rcases List.mem_cons.1 member with rfl | later
    · exact binds_bodyEnvAfter (s.binds_boundName first h) body
    · have after := ih rest later
      rwa [Place.isBranch_past] at after

/-- What the statement after a valid one is given as context means something there. -/
theorem Statement.resultContext_boundIn {k : Knowledge} {p : Place} {Γ : Env} {s : Statement}
    (valid : s.Valid k p Γ) : s.resultContext.BoundIn (s.envAfter p.isBranch Γ) := by
  unfold resultContext
  split
  · next block =>
    split
    · nofun
    · intro name member
      obtain ⟨original, among, rfl⟩ := List.mem_map.1 member
      obtain ⟨branch, inBody, bound⟩ := List.mem_filterMap.1 among
      rcases block with ⟨join, onFail, count, keys, body, span⟩
      obtain ⟨-, branches⟩ := valid
      have means := binds_bodyEnvAfter_of_mem branches inBody bound
      exact means
  · split
    · next name bound =>
      intro other member
      obtain rfl := List.mem_singleton.1 member
      have means := s.binds_boundName valid bound
      exact means
    · nofun

/-- The names that a scope starts with can be the context of what is in it. -/
theorem Context.boundIn_enter {c : Context} {names : List Ident} (Γ : Env) (kind : SymbolKind)
    (same : c.names.map Located.val = names.map Located.val) : c.BoundIn (Γ.enter kind names) := by
  intro name member
  have among : name.val ∈ names.map Located.val := same ▸ List.mem_map_of_mem member
  obtain ⟨other, inScope, eq⟩ := List.mem_map.1 among
  have bound := Env.binds_enter_of_mem Γ kind inScope
  rwa [Env.Binds, eq] at bound

/-! ## Names in use -/

namespace Expansion

/-- Whether every name that parts bind is in use. -/
def Covers (k : Expansion) (vs : List Visit) : Prop :=
  ∀ v ∈ vs, ∀ name ∈ v.boundNames, name.val ∈ k.used

variable {k : Expansion}

/-- Names in parts one after the other are in use in both. -/
theorem covers_append {a b : List Visit} : k.Covers (a ++ b) ↔ k.Covers a ∧ k.Covers b :=
  List.forall_mem_append

/-- Names of a part and of those after it. -/
theorem covers_cons {v : Visit} {vs : List Visit} :
    k.Covers (v :: vs) ↔ (∀ name ∈ v.boundNames, name.val ∈ k.used) ∧ k.Covers vs :=
  List.forall_mem_cons

/-- A part that is looked into. -/
theorem covers_opened {v : Visit} {within : List Visit} (inside : outsideDefinitions v = true) :
    k.Covers (Visit.opened outsideDefinitions v within)
      ↔ (∀ name ∈ v.boundNames, name.val ∈ k.used) ∧ k.Covers within := by
  rw [Visit.opened, if_pos inside, covers_cons]

/-- Names of a statement and of those after it. -/
theorem covers_bodyVisits {s : Statement} {body : List Statement} :
    k.Covers (bodyVisits outsideDefinitions (s :: body))
      ↔ k.Covers (Visit.opened outsideDefinitions (.statement s) (s.visits outsideDefinitions))
        ∧ k.Covers (bodyVisits outsideDefinitions body) := by
  have unnamed : ∀ name ∈ Visit.statementEnd.boundNames, name.val ∈ k.used := nofun
  rw [bodyVisits, covers_append, covers_cons, and_iff_right unnamed]

/-- The name of the result of an action. -/
theorem Covers.resultName {a : Action}
    (h : k.Covers (Visit.opened outsideDefinitions (.action a) (a.visits outsideDefinitions)))
    {name : Ident} (result : a.resultName? = some name) : name.val ∈ k.used := by
  cases a with
  | session s => exact h _ List.mem_cons_self name (Option.mem_toList.2 result)
  | _ => cases result

/-- The names that an operation introduces, written or not. -/
theorem not_makesUp_operation {o : Operation}
    (used : ∀ name ∈ (Visit.operation o).boundNames, name.val ∈ k.used) :
    ∀ name ∈ o.names, ¬ k.MakesUp name.val := by
  rcases o with ⟨operator, item, accumulator, body, span⟩
  have orDefault (x : Option Ident) (default : String)
      (written : ∀ name ∈ x.toList, name.val ∈ k.used)
      (plain : default.toList.head? ≠ some '_') :
      ¬ k.MakesUp (x.getD ⟨default, operator.span⟩).val := by
    cases x with
    | none => exact not_makesUp_of_head plain
    | some name => exact not_makesUp_of_mem (written name (List.mem_singleton.2 rfl))
  have ofItem := orDefault item OperationOf.defaultItem
    (fun name member ↦ used name (List.mem_append_left _ member)) (by decide)
  have ofAccumulator := orDefault accumulator OperationOf.defaultAccumulator
    (fun name member ↦ used name (List.mem_append_right _ member)) (by decide)
  intro name member
  rw [OperationOf.names] at member
  split at member
  · rcases List.mem_cons.1 member with rfl | last
    · exact ofAccumulator
    · obtain rfl := List.mem_singleton.1 last
      exact ofItem
  · obtain rfl := List.mem_singleton.1 member
    exact ofItem

end Expansion

/-! ## What statements declare -/

section

variable {k : Expansion} {n : Nat} {Γ Γ' : Env}

/-- A branch declares the name that it assigns in both programs or in neither. -/
theorem Env.Grows.envAfter_assignment (h : Env.Grows k n Γ Γ') {name : Ident} {value value' : Expr}
    {span : Span} (apart : ¬ k.MakesUp name.val) (isBranch : Bool) :
    Env.Grows k n ((Statement.assignment ⟨name, value, span⟩).envAfter isBranch Γ)
      ((Statement.assignment ⟨name, value', span⟩).envAfter isBranch Γ') := by
  have meaning := congrArg Option.isNone (h.resolve apart)
  rw [Option.isNone_map, Option.isNone_map] at meaning
  rw [Statement.envAfter, Statement.envAfter, meaning]
  split
  · exact h.bind .branch rfl apart
  · exact h

/-- Actions with the same name declare the same. -/
theorem Env.Grows.envAfter_action (h : Env.Grows k n Γ Γ') {a b : Action}
    (same : b.resultName? = a.resultName?)
    (apart : ∀ name, a.resultName? = some name → ¬ k.MakesUp name.val) (isBranch : Bool) :
    Env.Grows k n ((Statement.action a).envAfter isBranch Γ)
      ((Statement.action b).envAfter isBranch Γ') := by
  rw [Statement.envAfter_action, Statement.envAfter_action, same]
  cases result : a.resultName? with
  | none => exact h
  | some name => exact h.bind .session rfl (apart name result)

end

/-! ## What is written out -/

/-- What expansion has to know about a program for what it writes out to be valid: agents whose
settings exist and whose prompts have no names in them, and no name in use that it could give to a
branch. -/
structure Expansion.Suits (k : Expansion) (K : Knowledge) : Prop where
  agents : ∀ a ∈ k.agents, a.Valid K
  prompts : ∀ a ∈ k.agents, ∀ x, a.prompt = some x → x.interpolations = []
  branches : ∀ i, branchName i ∉ k.used

namespace Expansion

variable {k : Expansion} {K : Knowledge} {Γ Γ' : Env} {n : Nat}

/-- A name that is given to a branch is made up. -/
theorem Suits.makesUp_branchName (h : k.Suits K) (i : Nat) : k.MakesUp (branchName i) :=
  ⟨h.branches i, .inr ⟨i, rfl⟩⟩

/-- A name with a new number: where nothing numbered that high is bound, it is not. -/
theorem freshName_expands (k : Expansion) (n : Nat) :
    Expands n (fun name m ↦ ∃ i, name.val = anonymousName i ∧ k.MakesUp (anonymousName i) ∧ n ≤ i
      ∧ m = i + 1) k.freshName := by
  have le := start_le_freshIndex k.used n
  exact ⟨Nat.le_succ_of_le le, freshIndex k.used n, rfl, makesUp_freshIndex n, le, rfl⟩

/-- A valid session with the settings of its agent. -/
theorem withAgent_valid (suits : k.Suits K) {s : Session} (valid : SessionOf.Valid K Γ s) :
    SessionOf.Valid K Γ (k.withAgent s) := by
  rw [withAgent]
  split
  · exact valid
  · next a found =>
    have known : a ∈ k.agents := by
      obtain ⟨name, -, first⟩ := Option.bind_eq_some_iff.1 found
      exact List.mem_of_find?_eq_some first
    have settings := suits.agents a known
    refine { valid with task := ?_, model := ?_, skills := ?_, prompt := ?_ }
    · intro none
      cases written : s.prompt with
      | none => exact valid.task written
      | some x => simp [written] at none
    · intro m chosen
      cases written : s.model with
      | none => exact settings.model m (by simpa [written] using chosen)
      | some own => exact valid.model m (by simpa [written] using chosen)
    · intro x member
      cases written : s.skills with
      | some own => exact valid.skills x (by simpa [written] using member)
      | none =>
        apply settings.skills x
        cases empty : a.skills with
        | nil => simp [written, empty] at member
        | cons y ys => simpa [written, empty] using member
    · intro x chosen
      cases written : s.prompt with
      | some own => exact valid.prompt x (by simpa [written] using chosen)
      | none =>
        have given : a.prompt = some x := by simpa [written] using chosen
        intro name member
        rw [suits.prompts a known x given] at member
        cases member

/-- A valid session with everything written out. -/
theorem session_valid (suits : k.Suits K) (grows : Env.Grows k n Γ Γ') {context : Context}
    (bound : context.BoundIn Γ') {s : Session} (valid : SessionOf.Valid K Γ s) :
    SessionOf.Valid K Γ' (k.session context s) := by
  have settled := withAgent_valid suits valid
  refine { settled with backoff := ?_, prompt := ?_, context := ?_ }
  · intro b chosen
    cases written : (k.withAgent s).backoff with
    | some own => exact settled.backoff b (by simpa [session, written] using chosen)
    | none =>
      cases retried : (k.withAgent s).retry with
      | none => simp [session, written, retried] at chosen
      | some r =>
        obtain rfl : .made "none" = b := by simpa [session, written, retried] using chosen
        rfl
  · intro x chosen name member
    exact grows.binds rfl (settled.prompt x chosen name member)
  · intro name member
    change name ∈ (if (k.withAgent s).context.isImplicit then context
      else (k.withAgent s).context).names at member
    split at member
    · exact bound name member
    · exact grows.binds rfl (settled.context name member)

end Expansion

/-- The strategy that is written out is the one that counts. -/
theorem ParallelOf.ofText?_join (p : Parallel) :
    JoinStrategy.ofText? (p.join.getD (.made JoinStrategy.all.text)).val = Check.joinOf p := by
  rw [Check.joinOf]
  cases p.join with
  | none => rfl
  | some join => rfl

/-- A valid header with everything written out. -/
theorem ParallelOf.valid_withDefaults {join onFail : Option (Located String)}
    {count : Option (Located Nat)} {keys : List Ident} {body body' : List Statement} {span : Span}
    (valid : ParallelOf.Valid ⟨join, onFail, count, keys, body, span⟩)
    (branches : body'.any Statement.isExecutable = body.any Statement.isExecutable) :
    ParallelOf.Valid
      { ParallelOf.withDefaults ⟨join, onFail, count, keys, [], span⟩ with body := body' } := by
  have strategy : JoinStrategy.ofText? (join.getD (.made JoinStrategy.all.text)).val
      = Check.joinOf ⟨join, onFail, count, keys, body, span⟩ :=
    ParallelOf.ofText?_join ⟨join, onFail, count, keys, body, span⟩
  constructor
  · intro _ _
    change (JoinStrategy.ofText? _).isSome
    rw [strategy]
    cases join with
    | none => rfl
    | some j => exact valid.join j rfl
  · intro f chosen
    cases onFail with
    | some own => exact valid.onFail f chosen
    | none =>
      obtain rfl := Option.some.inj chosen
      change (FailurePolicy.ofText? (if _ then FailurePolicy.ignore else .failFast).text).isSome
      split <;> rfl
  · intro n chosen
    change (JoinStrategy.ofText? _).any _ = false ∧ _
    rw [strategy]
    cases count with
    | some own => exact valid.count n chosen
    | none =>
      change (if JoinStrategy.ofText? _ = _ then _ else _) = some n at chosen
      rw [strategy] at chosen
      split at chosen
      · next any =>
        obtain rfl := Option.some.inj chosen
        rw [any]
        exact ⟨rfl, Nat.one_ne_zero⟩
      · cases chosen
  · intro f chosen regardless
    change JoinStrategy.ofText? _ = _ at regardless
    cases onFail with
    | some own => exact valid.policy f chosen (strategy.symm.trans regardless)
    | none =>
      obtain rfl := Option.some.inj chosen
      change FailurePolicy.ofText? (if JoinStrategy.ofText? _
        = _ then _ else _ : FailurePolicy).text
        ≠ _
      rw [if_pos regardless]
      decide
  · exact branches.trans valid.body

namespace OperationOf

/-- An operation introduces the same names when they are written out. -/
theorem map_val_names_written (o : Operation) (body : List Statement) :
    (OperationOf.names ⟨o.operator, some o.itemIdent, o.accumulatorIdent?, body, o.span⟩).map
      Located.val = o.names.map Located.val := by
  rcases o with ⟨operator, item, accumulator, _, span⟩
  simp only [names, itemIdent, accumulatorIdent?]
  split <;> cases item <;> cases accumulator <;> rfl

/-- The body of an operation is given the names that the operation introduces. -/
theorem map_val_bodyContext (o : Operation) :
    o.bodyContext.names.map Located.val = o.names.map Located.val := by
  rcases o with ⟨operator, item, accumulator, _, span⟩
  simp only [names, bodyContext, itemIdent]
  split <;> cases item <;> cases accumulator <;> rfl

end OperationOf

/-! ## Names of results -/

/-- Whether two statements have the same part in what the place of others is. -/
structure Statement.Like (s t : Statement) : Prop where
  isExecutable : t.isExecutable = s.isExecutable
  past : ∀ p : Place, p.past t = p.past s

/-- Expansion keeps what the rules about a place look at. -/
theorem Statement.canonical_like (k : Expansion) (context : Context) (s : Statement) :
    Yields s.Like (s.canonical k context) := by
  cases s with
  | comment | importSkill | agent | throw => exact .pure ⟨rfl, fun _ ↦ rfl⟩
  | forEach | conditional =>
    exact .bind (.any _) fun _ _ ↦ .bind (.any _) fun _ _ ↦ .pure ⟨rfl, fun _ ↦ rfl⟩
  | attempt =>
    exact .bind (.any _) fun _ _ ↦ .bind (.any _) fun _ _ ↦ .bind (.any _) fun _ _ ↦
      .pure ⟨rfl, fun _ ↦ rfl⟩
  | _ => exact .bind (.any _) fun _ _ ↦ .pure ⟨rfl, fun _ ↦ rfl⟩

/-- The name of a result keeps what the rules about a place look at. -/
theorem Statement.withName_like (k : Expansion) (s : Statement) :
    Yields s.Like (s.withName k) := by
  cases s with
  | action a =>
    cases a with
    | session t =>
      rw [withName]
      split
      · exact .pure ⟨rfl, fun _ ↦ rfl⟩
      · exact .bind (.any _) fun _ _ ↦ .pure ⟨rfl, fun _ ↦ rfl⟩
    | _ => exact .pure ⟨rfl, fun _ ↦ rfl⟩
  | _ => exact .pure ⟨rfl, fun _ ↦ rfl⟩

/-- The name of a branch keeps what the rules about a place look at. -/
theorem Statement.asBranch_like (n : Nat) (s : Statement) : s.Like (s.asBranch n) := by
  cases s with
  | action a =>
    cases a with
    | session t =>
      rw [asBranch]
      split <;> exact ⟨rfl, fun _ ↦ rfl⟩
    | _ => exact ⟨rfl, fun _ ↦ rfl⟩
  | _ => exact ⟨rfl, fun _ ↦ rfl⟩

/-- A parallel block has something to run after expansion if it has before. -/
theorem canonicalBranches_executable (k : Expansion) (context : Context) (n : Nat)
    (body : List Statement) :
    Yields (fun body' ↦ body'.any Statement.isExecutable = body.any Statement.isExecutable)
      (canonicalBranches k context n body) := by
  induction body generalizing n with
  | nil => exact .pure rfl
  | cons s body ih =>
    refine .bind (s.canonical_like k context) fun t like ↦ ?_
    split
    · refine .bind (ih (n + 1)) fun rest same ↦ .pure ?_
      rw [List.any_cons, List.any_cons, (t.asBranch_like n).isExecutable, like.isExecutable, same]
    · refine .bind (ih n) fun rest same ↦ .pure ?_
      rw [List.any_cons, List.any_cons, like.isExecutable, same]

/-- Expansion keeps the number of values. -/
theorem length_canonicalValues (k : Expansion) (context : Context) (es : List Expr) :
    Yields (fun es' ↦ es'.length = es.length) (canonicalValues k context es) := by
  induction es with
  | nil => exact .pure rfl
  | cons e es ih =>
    exact .bind (.any _) fun _ _ ↦ .bind ih fun _ same ↦ .pure (congrArg (· + 1) same)

/-- Expansion keeps the name of the result of an action. -/
theorem Action.canonical_resultName (k : Expansion) (context : Context) (a : Action) :
    Yields (fun b ↦ b.resultName? = a.resultName?) (a.canonical k context) := by
  cases a with
  | session s =>
    have kept : (k.withAgent s).name = s.name := by
      rw [Expansion.withAgent]
      split <;> rfl
    exact .pure kept
  | pipe => exact .bind (.any _) fun _ _ ↦ .bind (.any _) fun _ _ ↦ .pure rfl
  | _ => exact .bind (.any _) fun _ _ ↦ .pure rfl

section

variable {k : Expansion} {K : Knowledge} {p : Place} {Γ Γ' Δ : Env} {n : Nat}

/-- The name that the result of a statement of a sequence gets is new. -/
theorem Statement.withName_valid {s : Statement} (valid : s.Valid K p Γ')
    (grows : Env.Grows k n Δ (s.envAfter p.isBranch Γ')) :
    Expands n (fun t m ↦ t.Valid K p Γ' ∧ Env.Grows k m Δ (t.envAfter p.isBranch Γ'))
      (s.withName k) := by
  cases s with
  | action a =>
    cases a with
    | session t =>
      cases named : t.name with
      | some name =>
        rw [withName, named]
        exact .pure ⟨valid, grows⟩
      | none =>
        rw [withName, named]
        have unnamed : (Statement.action (.session t)).envAfter p.isBranch Γ' = Γ' := by
          rw [envAfter, named]
        rw [unnamed] at grows
        apply (k.freshName_expands n).bind
        rintro name m - ⟨i, is, made, later, rfl⟩
        refine .pure ⟨⟨{ valid.1 with }, ?_⟩, ?_⟩
        · intro other result
          obtain rfl := Option.some.inj result
          exact grows.lacks_anonymous is made later
        · exact grows.bind_anonymous is made later .session
    | _ => exact .pure ⟨valid, grows⟩
  | _ => exact .pure ⟨valid, grows⟩

/-- The name that the result of a branch gets can be assigned. -/
theorem Statement.asBranch_valid {s : Statement} (valid : s.Valid K p Γ')
    (parallel : p.isBranch = true) {i : Nat} (made : k.MakesUp (branchName i))
    (grows : Env.Grows k n Δ (s.envAfter p.isBranch Γ')) :
    (s.asBranch i).Valid K p Γ' ∧ Env.Grows k n Δ ((s.asBranch i).envAfter p.isBranch Γ') := by
  have assigned (a : Action) (span : Span) (value : a.Valid K p Γ') (kept : Env.Grows k n Δ Γ') :
      (Statement.assignment ⟨.made (branchName i), .action a, span⟩).Valid K p Γ'
        ∧ Env.Grows k n Δ
          ((Statement.assignment ⟨.made (branchName i), .action a, span⟩).envAfter p.isBranch
            Γ') := by
    rw [envAfter, Statement.Valid, parallel]
    refine ⟨⟨value, kept.assigns_branch rfl made⟩, ?_⟩
    split
    · exact kept.bind_branch rfl made
    · exact kept
  cases s with
  | action a =>
    cases a with
    | session t =>
      rw [asBranch]
      split
      · exact ⟨valid, grows⟩
      · next unnamed =>
        have kept : (Statement.action (.session t)).envAfter p.isBranch Γ' = Γ' := by
          rw [envAfter, Option.not_isSome_iff_eq_none.1 unnamed]
        exact assigned _ _ valid.1 (kept ▸ grows)
    | pipe | doBlock | invoke => exact assigned _ _ valid.1 grows
  | _ => exact ⟨valid, grows⟩

end

end ProseLang
