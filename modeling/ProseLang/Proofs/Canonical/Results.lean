import ProseLang.Proofs.Canonical.Additions
import ProseLang.Proofs.Canonical.Sites

/-!
# Results after expansion

Expansion hands down the results of statements by name. This is what becomes of these names: they
are those of the original program and names that are made up (`Statement.canonical_resultNames`),
and they mean something after their statements (`Statement.binds_resultNames`), where names mean all
that they mean in the original program (`Env.Within`, `Statement.canonical_within`).
-/

namespace ProseLang

open Expansion

/-- A step gives what has two properties if it gives what has each of them. -/
theorem Yields.and {α : Type} {P Q : α → Prop} {x : Expand α} (h : Yields P x) (h' : Yields Q x) :
    Yields (fun a ↦ P a ∧ Q a) x := fun n ↦ ⟨h n, h' n⟩

/-! ## Environments -/

namespace Env

/-- Whether every name that means something in one environment does so in another. -/
def Within (Γ Γ' : Env) : Prop := ∀ name : Ident, Γ.Binds name → Γ'.Binds name

private theorem binds_bind_iff {Γ : Env} {x y : Ident} {kind : SymbolKind} :
    (Γ.bind x kind).Binds y ↔ Γ.Binds y ∨ x.val = y.val := by
  rw [Binds, Binds, resolve_eq (Γ.bind x kind), bind, List.headD_cons, List.tail_cons, resolve_eq Γ,
    extend]
  by_cases same : x.val = y.val <;> simp [same]

/-- In a scope a name means something if it is one of the scope or means something outside. -/
theorem binds_enter_iff {Γ : Env} {names : List Ident} {y : Ident} {kind : SymbolKind} :
    (Γ.enter kind names).Binds y ↔ Γ.Binds y ∨ y.val ∈ names.map Located.val := by
  have start : Binds (emptyScope :: Γ) y ↔ Γ.Binds y := by rw [Binds, resolve_cons]; rfl
  rw [enter, ← start]
  generalize (emptyScope :: Γ : Env) = Δ
  induction names generalizing Δ with
  | nil => simp
  | cons x names ih =>
    refine (ih (bind Δ x kind)).trans ?_
    rw [binds_bind_iff, List.map_cons, List.mem_cons, or_assoc, eq_comm]

namespace Within

variable {Γ Γ' : Env}

/-- The same declaration in both. -/
theorem bind (h : Γ.Within Γ') (name : Ident) (kind : SymbolKind) :
    (Γ.bind name kind).Within (Γ'.bind name kind) := by
  intro y
  rw [binds_bind_iff, binds_bind_iff]
  exact Or.imp_left (h y)

/-- A new scope with the same names in both. -/
theorem enter (h : Γ.Within Γ') (kind : SymbolKind) {names names' : List Ident}
    (same : names'.map Located.val = names.map Located.val) :
    (Γ.enter kind names).Within (Γ'.enter kind names') := by
  intro y
  rw [binds_enter_iff, binds_enter_iff, same]
  exact Or.imp_left (h y)

/-- What a statement declares besides. -/
theorem envAfter {isBranch : Bool} (h : Γ.Within Γ') (s : Statement) :
    Γ.Within (s.envAfter isBranch Γ') := fun y bound ↦ s.binds_envAfter (h y bound)

/-- The same assignment in both. -/
theorem assignment (h : Γ.Within Γ') (isBranch : Bool) (name : Ident) (value value' : Expr)
    (span : Span) :
    ((Statement.assignment ⟨name, value, span⟩).envAfter isBranch Γ).Within
      ((Statement.assignment ⟨name, value', span⟩).envAfter isBranch Γ') := by
  intro y bound
  rw [Statement.envAfter] at bound
  split at bound
  · next new =>
    rcases binds_bind_iff.1 bound with old | same
    · exact h.envAfter _ y old
    · have branch : isBranch = true := (Bool.and_eq_true_iff.1 new).1
      rw [Statement.envAfter]
      split
      · exact binds_bind_iff.2 (.inr same)
      · next known => simpa [branch, Binds, ← same, Option.isSome_iff_ne_none] using known
  · exact h.envAfter _ y bound

end Within

end Env

/-! ## Names that are made up -/

/-- A name that is made up for a result. -/
theorem Expansion.freshName_yields (k : Expansion) :
    Yields (fun name ↦ name.span = .nowhere ∧ k.MakesUp name.val) k.freshName := by
  intro n
  obtain ⟨-, i, is, made, -⟩ := k.freshName_expands n
  exact ⟨rfl, by rwa [is]⟩

/-- A statement stays as it is when its result gets a name, or it is a session that has none. -/
theorem Statement.withName_yields {k : Expansion} {s : Statement} {P : Statement → Prop}
    (kept : P s)
    (named : ∀ t name, s = .action (.session t) → t.name = none → name.span = .nowhere →
      k.MakesUp name.val → P (.action (.session { t with name := some name }))) :
    Yields P (s.withName k) := by
  cases s with
  | action a =>
    cases a with
    | session t =>
      rw [withName]
      split
      · exact .pure kept
      · next unnamed =>
        refine .bind k.freshName_yields fun name fresh ↦ ?_
        exact .pure (named t name rfl unnamed fresh.1 fresh.2)
    | _ => exact .pure kept
  | _ => exact .pure kept

/-- A statement stays as it is as a branch, or its result gets the name of the branch. -/
theorem Statement.asBranch_cases {s : Statement} {i : Nat} {P : Statement → Prop} (kept : P s)
    (named : ∀ a, s = .action a → a.resultName? = none →
      P (.assignment ⟨.made (branchName i), .action a, a.span⟩)) : P (s.asBranch i) := by
  cases s with
  | action a =>
    cases a with
    | session t =>
      rw [asBranch]
      split
      · exact kept
      · next unnamed => exact named _ rfl (Option.not_isSome_iff_eq_none.1 unnamed)
    | pipe | doBlock | invoke => exact named _ rfl rfl
  | _ => exact kept

/-- The name of a branch introduces nothing else. -/
theorem Statement.introduces_asBranch (s : Statement) (i : Nat) :
    (s.asBranch i).introduces = s.introduces := by
  apply s.asBranch_cases (P := fun t ↦ t.introduces = s.introduces) rfl
  rintro a rfl unnamed
  rw [introduces, introduces, unnamed]
  · rfl
  · nofun
  · nofun
  · nofun

/-! ## Names of results -/

/-- The result of an action as a statement has the name of the action. -/
theorem Statement.boundName_action (a : Action) :
    (Statement.action a).boundName? = a.resultName? := by
  cases a <;> rfl

/-- The result of an action is known under its name, if it has one. -/
theorem Check.resultNames_action (a : Action) :
    resultNames (.action a) = (a.resultName?.map Located.val).toList := by
  cases a <;> rfl

/-- Expansion of a statement changes its name for its result only afterwards. -/
theorem Statement.canonical_boundName (k : Expansion) (context : Context) (s : Statement) :
    Yields (fun t ↦ t.boundName? = s.boundName?) (s.canonical k context) := by
  cases s with
  | action a =>
    refine .bind (a.canonical_resultName k context) fun b same ↦ .pure ?_
    rw [boundName_action, boundName_action, same]
  | comment | importSkill | agent | throw => exact .pure rfl
  | forEach | conditional => exact .bind (.any _) fun _ _ ↦ .bind (.any _) fun _ _ ↦ .pure rfl
  | attempt =>
    exact .bind (.any _) fun _ _ ↦ .bind (.any _) fun _ _ ↦ .bind (.any _) fun _ _ ↦ .pure rfl
  | _ => exact .bind (.any _) fun _ _ ↦ .pure rfl

/-- The names that a statement is given by the one before it are those of its result. -/
theorem Statement.names_resultContext (s : Statement) :
    s.resultContext.names.map Located.val = Check.resultNames s := by
  cases s with
  | parallel p =>
    rw [resultContext]
    split
    · next none =>
      have empty : p.branchNames = [] := List.isEmpty_iff.1 none
      rw [Check.resultNames, empty]
      rfl
    · simp [Context.names, Check.resultNames, Located.made]
  | action a =>
    cases a with
    | session t =>
      cases named : t.name <;> simp [resultContext, boundName?, Check.resultNames, named,
        Context.names, Located.made]
    | _ => rfl
  | _ => rfl

/-- Whether two lists have the same names, apart from names that are made up. -/
def Expansion.SameNames (k : Expansion) (names names' : List String) : Prop :=
  ∀ x, ¬ k.MakesUp x → (x ∈ names' ↔ x ∈ names)

namespace Expansion.SameNames

variable {k : Expansion} {as as' bs bs' : List String}

/-- Names are the same as themselves. -/
theorem refl (names : List String) : k.SameNames names names := fun _ _ ↦ Iff.rfl

/-- Names that are the same as others are the same as those that the others are. -/
theorem trans {cs : List String} (h : k.SameNames as bs) (h' : k.SameNames bs cs) :
    k.SameNames as cs := fun x apart ↦ (h' x apart).trans (h x apart)

private theorem append (h : k.SameNames as as') (h' : k.SameNames bs bs') :
    k.SameNames (as ++ bs) (as' ++ bs') := by
  intro x apart
  rw [List.mem_append, List.mem_append, h x apart, h' x apart]

/-- A name that is made up. -/
theorem made {name : String} (h : k.MakesUp name) : k.SameNames [] [name] := by
  intro x apart
  have ne : x ≠ name := fun same ↦ apart (same ▸ h)
  simp [ne]

/-- A name of the second list is one of the first, or it is made up. -/
theorem known (h : k.SameNames as bs) {x : String} (member : x ∈ bs) : x ∈ as ∨ k.MakesUp x :=
  (Classical.em (k.MakesUp x)).symm.imp_left fun apart ↦ (h x apart).1 member

end Expansion.SameNames

section

variable {k : Expansion} (branches : ∀ i, branchName i ∉ k.used)

include branches

/-- The results of branches have their names, besides names that are made up. -/
theorem canonicalBranches_boundNames (context : Context) (i : Nat) (body : List Statement) :
    Yields (fun body' ↦ k.SameNames ((body.filterMap Statement.boundName?).map Located.val)
        ((body'.filterMap Statement.boundName?).map Located.val))
      (canonicalBranches k context i body) := by
  have cons (s : Statement) (body : List Statement) :
      ((s :: body).filterMap Statement.boundName?).map Located.val
        = (s.boundName?.map Located.val).toList
          ++ (body.filterMap Statement.boundName?).map Located.val := by
    rw [List.filterMap_cons]
    cases s.boundName? <;> rfl
  induction body generalizing i with
  | nil => exact .pure (.refl _)
  | cons s body ih =>
    refine .bind (s.canonical_boundName k context) fun t same ↦ ?_
    have after (i : Nat) (u : Statement)
        (first : k.SameNames (s.boundName?.map Located.val).toList
          (u.boundName?.map Located.val).toList) :
        Yields (fun body' ↦ k.SameNames (((s :: body).filterMap Statement.boundName?).map
            Located.val) ((body'.filterMap Statement.boundName?).map Located.val))
          (return u :: (← canonicalBranches k context i body)) := by
      refine .bind (ih i) fun body' rest ↦ .pure ?_
      rw [cons, cons]
      exact first.append rest
    split
    · apply after (i + 1)
      refine t.asBranch_cases (P := fun u ↦ k.SameNames (s.boundName?.map Located.val).toList
        (u.boundName?.map Located.val).toList) (same ▸ .refl _) ?_
      rintro a rfl unnamed
      rw [← same, Statement.boundName_action, unnamed]
      exact .made ⟨branches i, .inr ⟨i, rfl⟩⟩
    · exact after i t (same ▸ .refl _)

/-- The result of a statement of a sequence has its names, besides names that are made up. -/
theorem Statement.canonical_resultNames (context : Context) (s : Statement) :
    Yields (fun t ↦ k.SameNames (Check.resultNames s) (Check.resultNames t))
      (s.canonical k context) := by
  have plain {t : Statement} (same : t.boundName? = s.boundName?) :
      k.SameNames (s.boundName?.map Located.val).toList (t.boundName?.map Located.val).toList :=
    same ▸ .refl _
  cases s with
  | parallel p =>
    rcases p with ⟨join, onFail, count, keys, body, span⟩
    exact .bind (canonicalBranches_boundNames branches context 0 body) fun body' same ↦ .pure same
  | action a =>
    refine .bind (a.canonical_resultName k context) fun b same ↦ .pure (plain ?_)
    rw [boundName_action, boundName_action, same]
  | comment | importSkill | agent | throw => exact .pure (plain rfl)
  | forEach | conditional =>
    exact .bind (.any _) fun _ _ ↦ .bind (.any _) fun _ _ ↦ .pure (plain rfl)
  | attempt =>
    exact .bind (.any _) fun _ _ ↦ .bind (.any _) fun _ _ ↦ .bind (.any _) fun _ _ ↦
      .pure (plain rfl)
  | _ => exact .bind (.any _) fun _ _ ↦ .pure (plain rfl)

end

/-! ## What names mean after a result -/

/-- The name of its result makes a statement of a sequence declare no less. -/
theorem Statement.withName_within {k : Expansion} {Γ Δ : Env} {s : Statement}
    (within : Δ.Within (s.envAfter false Γ)) :
    Yields (fun t ↦ Δ.Within (t.envAfter false Γ)) (s.withName k) := by
  refine withName_yields (P := fun t ↦ Δ.Within (t.envAfter false Γ)) within ?_
  rintro t name rfl unnamed - -
  rw [envAfter, unnamed] at within
  exact within.envAfter _

/-- As a branch, a statement declares no less. -/
theorem Env.Within.asBranch {Γ Δ : Env} {s : Statement} (within : Δ.Within (s.envAfter true Γ))
    (i : Nat) : Δ.Within ((s.asBranch i).envAfter true Γ) := by
  apply s.asBranch_cases (P := fun t ↦ Δ.Within (t.envAfter true Γ)) within
  rintro a rfl unnamed
  rw [Statement.envAfter_action, unnamed] at within
  exact within.envAfter _

mutual

/-- After a statement and its canonical form, names mean no less in the canonical program. -/
theorem Statement.canonical_within {k : Expansion} {context : Context} (isBranch : Bool)
    {Γ Γ' : Env} (within : Γ.Within Γ') :
    (s : Statement) →
      Yields (fun t ↦ (s.envAfter isBranch Γ).Within (t.envAfter isBranch Γ'))
      (s.canonical k context)
  | .binding kind ⟨name, _, _⟩ =>
    .bind (.any _) fun _ _ ↦ .pure (within.bind name kind.symbolKind)
  | .assignment ⟨name, value, span⟩ =>
    .bind (.any _) fun value' _ ↦ .pure (within.assignment isBranch name value value' span)
  | .action a => by
    refine .bind (a.canonical_resultName k context) fun b same ↦ .pure ?_
    rw [Statement.envAfter_action, Statement.envAfter_action, same]
    cases a.resultName? with
    | none => exact within
    | some name => exact within.bind name .session
  | .parallel ⟨_, _, _, _, body, _⟩ =>
    .bind (canonicalBranches_within within 0 body) fun _ h ↦ .pure h
  | .comment _ | .importSkill _ | .agent _ | .throw _ => .pure within
  | .forEach _ | .conditional _ =>
    .bind (.any _) fun _ _ ↦ .bind (.any _) fun _ _ ↦ .pure within
  | .attempt _ =>
    .bind (.any _) fun _ _ ↦ .bind (.any _) fun _ _ ↦ .bind (.any _) fun _ _ ↦ .pure within
  | .block _ | .repeated _ | .loop _ | .choice _ => .bind (.any _) fun _ _ ↦ .pure within

private theorem canonicalBranches_within {k : Expansion} {context : Context} {Γ Γ' : Env}
    (within : Γ.Within Γ') (i : Nat) :
    (body : List Statement) →
      Yields (fun body' ↦ (bodyEnvAfter true Γ body).Within (bodyEnvAfter true Γ' body'))
        (canonicalBranches k context i body)
  | [] => .pure within
  | s :: body => by
    refine .bind (s.canonical_within true within) fun t after ↦ ?_
    split
    · exact .bind (canonicalBranches_within (after.asBranch i) (i + 1) body) fun _ h ↦ .pure h
    · exact .bind (canonicalBranches_within after i body) fun _ h ↦ .pure h

end

/-- The name of a result means something after its statement; an assignment has to find it. -/
theorem Statement.binds_result {isBranch : Bool} {Γ : Env} {s : Statement} {name : Ident}
    (h : s.boundName? = some name)
    (assigned : ∀ a, s = .assignment a → isBranch = false → Γ.Binds a.name) :
    (s.envAfter isBranch Γ).Binds name := by
  cases s with
  | binding kind b =>
    obtain rfl : b.name = name := Option.some.inj h
    exact Env.binds_bind_self Γ b.name kind.symbolKind
  | assignment a =>
    have found := assigned a rfl
    rcases a with ⟨other, value, span⟩
    obtain rfl : other = name := Option.some.inj h
    rw [envAfter]
    split
    · exact Env.binds_bind_self Γ other .branch
    · next old =>
      cases branch : isBranch with
      | false => exact found branch
      | true => simpa [branch, Env.Binds, Option.isSome_iff_ne_none] using old
  | action a =>
    rw [boundName_action] at h
    rw [envAfter_action, h]
    exact Env.binds_bind_self Γ name .session
  | _ => cases h

/-- The names of the results of branches mean something after them. -/
theorem binds_branchNames {Γ : Env} {body : List Statement} {name : Ident}
    (h : name ∈ body.filterMap Statement.boundName?) : (bodyEnvAfter true Γ body).Binds name := by
  induction body generalizing Γ with
  | nil => cases h
  | cons s body ih =>
    obtain ⟨t, member, bound⟩ := List.mem_filterMap.1 h
    rcases List.mem_cons.1 member with rfl | later
    · have here : (t.envAfter true Γ).Binds name :=
        t.binds_result bound fun _ _ sequence ↦ Bool.noConfusion sequence
      exact binds_bodyEnvAfter here body
    · exact ih (List.mem_filterMap.2 ⟨t, later, bound⟩)

/-- The names of the result of a statement of a sequence mean something after it. -/
theorem Statement.binds_resultNames {Γ : Env} {s : Statement}
    (assigned : ∀ a, s = .assignment a → Γ.Binds a.name) {x : String}
    (h : x ∈ Check.resultNames s) : ((s.envAfter false Γ).resolve x).isSome := by
  have plain (h : x ∈ (s.boundName?.map Located.val).toList) :
      ((s.envAfter false Γ).resolve x).isSome := by
    obtain ⟨name, bound, rfl⟩ := Option.map_eq_some_iff.1 (Option.mem_toList.1 h)
    exact s.binds_result bound fun a is _ ↦ assigned a is
  cases s with
  | parallel p =>
    obtain ⟨name, member, rfl⟩ := List.mem_map.1 h
    exact binds_branchNames member
  | _ => exact plain h

/-- What a valid statement of a sequence assigns means something before its canonical form. -/
theorem Statement.canonical_assigned {k : Expansion} {context : Context} {K : Knowledge} {p : Place}
    {Γ Γ' : Env} (sequence : p.isBranch = false) (within : Γ.Within Γ') {s : Statement}
    (valid : s.Valid K p Γ) :
    Yields (fun t ↦ ∀ a, t = .assignment a → Γ'.Binds a.name) (s.canonical k context) := by
  intro n a is
  obtain ⟨same, after⟩ := (s.canonical_boundName k context).and (s.canonical_within false within) n
  rw [is] at same after
  have bound := s.binds_boundName valid same.symm
  rw [sequence] at bound
  exact after a.name bound

/-! ## Names of a scope -/

mutual

/-- Expansion introduces no names but those of results, afterwards. -/
theorem Statement.canonical_introduces (k : Expansion) (context : Context) :
    (s : Statement) → Yields (fun t ↦ t.introduces = s.introduces) (s.canonical k context)
  | .binding _ ⟨_, _, _⟩ => .bind (.any _) fun _ _ ↦ .pure rfl
  | .action a => .bind (a.canonical_resultName k context) fun _ same ↦
    .pure (congrArg (fun name ↦ (name.map Located.val).toList) same)
  | .parallel ⟨_, _, _, _, body, _⟩ =>
    .bind (canonicalBranches_introduces k context 0 body) fun _ h ↦ .pure h
  | .comment _ | .importSkill _ | .agent _ | .throw _ => .pure rfl
  | .forEach _ | .conditional _ => .bind (.any _) fun _ _ ↦ .bind (.any _) fun _ _ ↦ .pure rfl
  | .attempt _ =>
    .bind (.any _) fun _ _ ↦ .bind (.any _) fun _ _ ↦ .bind (.any _) fun _ _ ↦ .pure rfl
  | .assignment _ | .block _ | .repeated _ | .loop _ | .choice _ =>
    .bind (.any _) fun _ _ ↦ .pure rfl

private theorem canonicalBranches_introduces (k : Expansion) (context : Context) (i : Nat) :
    (body : List Statement) →
      Yields (fun body' ↦ bodyIntroduces body' = bodyIntroduces body)
        (canonicalBranches k context i body)
  | [] => .pure rfl
  | s :: body => by
    refine .bind (s.canonical_introduces k context) fun t same ↦ ?_
    split
    · refine .bind (canonicalBranches_introduces k context (i + 1) body) fun _ h ↦ .pure ?_
      rw [bodyIntroduces, bodyIntroduces, t.introduces_asBranch, same, h]
    · refine .bind (canonicalBranches_introduces k context i body) fun _ h ↦ .pure ?_
      rw [bodyIntroduces, bodyIntroduces, same, h]

end

mutual

/-- The names that a statement introduces are among those that it binds. -/
theorem Expansion.Covers.introduces {k : Expansion} :
    (s : Statement) →
      k.Covers (Visit.opened outsideDefinitions (.statement s) (s.visits outsideDefinitions)) →
      ∀ x ∈ s.introduces, x ∈ k.used
  | .binding _ ⟨name, _, _⟩, used => by
    obtain ⟨header, -⟩ := (covers_opened rfl).1 used
    exact List.forall_mem_singleton.2 (header name List.mem_cons_self)
  | .action a, used => by
    obtain ⟨-, within⟩ := (covers_opened rfl).1 used
    intro x member
    obtain ⟨name, result, rfl⟩ := Option.map_eq_some_iff.1 (Option.mem_toList.1 member)
    exact within.resultName result
  | .parallel ⟨_, _, _, _, body, _⟩, used =>
    Covers.bodyIntroduces body ((covers_opened rfl).1 used).2
  | .comment _, _ | .importSkill _, _ | .agent _, _ | .throw _, _ | .forEach _, _
  | .conditional _, _ | .attempt _, _ | .assignment _, _ | .block _, _ | .repeated _, _ | .loop _, _
  | .choice _, _ => nofun

private theorem Expansion.Covers.bodyIntroduces {k : Expansion} :
    (body : List Statement) → k.Covers (bodyVisits outsideDefinitions body) →
      ∀ x ∈ bodyIntroduces body, x ∈ k.used
  | [], _ => nofun
  | s :: body, used => by
    obtain ⟨here, later⟩ := covers_bodyVisits.1 used
    exact List.forall_mem_append.2 ⟨Covers.introduces s here, Covers.bodyIntroduces body later⟩

end

end ProseLang
