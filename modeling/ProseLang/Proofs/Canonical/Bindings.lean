import ProseLang.Proofs.Canonical.Results
import ProseLang.Proofs.Validation.Overlooked

/-!
# Bindings after expansion

Expansion adds no let or const bindings, and the names that it makes up hide none. So in a canonical
program every name stands for the let or const binding that it stands for in the original one
(`Env.Mirrors.holder?`), and the scopes have the same bindings. Declarations keep this
(`Statement.canonical_mirrors`, `canonicalBody_mirrors`).
-/

namespace ProseLang

open Expansion

/-- Whether a scope of a canonical program has the let and const bindings of a scope of the original
one, and apart from names that are made up the same names. -/
structure ScopeMirrors (k : Expansion) (scope scope' : String → Option Declaration) : Prop where
  bindings : ∀ x, bindingOf (scope' x) = bindingOf (scope x)
  bound : ∀ x, ¬ k.MakesUp x → (scope' x).isSome = (scope x).isSome
  unmade : ∀ x, k.MakesUp x → scope x = none

/-- Whether the scopes of a canonical program mirror those of the original one. -/
inductive Env.Mirrors (k : Expansion) : Env → Env → Prop
  | scope {scope scope' : String → Option Declaration} (h : ScopeMirrors k scope scope') :
      Mirrors k [scope] [scope']
  | inner {scope scope' : String → Option Declaration} {Γ Γ' : Env}
      (h : ScopeMirrors k scope scope') (outer : Mirrors k Γ Γ') :
      Mirrors k (scope :: Γ) (scope' :: Γ')

private theorem bindingOf_eq_none {d : Declaration} (plain : d.kind.isBinding = false) :
    bindingOf (some d) = none := by
  simp [bindingOf, Option.filter, plain]

namespace ScopeMirrors

variable {k : Expansion} {scope scope' : String → Option Declaration}

/-- Empty scopes mirror each other. -/
theorem empty : ScopeMirrors k Env.emptyScope Env.emptyScope :=
  ⟨fun _ ↦ rfl, fun _ _ ↦ rfl, fun _ _ ↦ rfl⟩

/-- A name that is declared in both scopes. -/
theorem extend (h : ScopeMirrors k scope scope') (name : Ident) (kind : SymbolKind)
    (apart : ¬ k.MakesUp name.val) :
    ScopeMirrors k (Env.extend scope name kind) (Env.extend scope' name kind) where
  bindings x := by
    rw [Env.extend, Env.extend]
    by_cases same : name.val = x
    · have bound := h.bound x (same ▸ apart)
      have kept := h.bindings x
      cases first : scope x <;> cases second : scope' x <;> simp_all
    · rw [if_neg same, Option.or_none, Option.or_none, h.bindings x]
  bound x unmade := by rw [Env.extend, Env.extend, Option.isSome_or, Option.isSome_or,
    h.bound x unmade]
  unmade x made := by
    have ne : name.val ≠ x := fun same ↦ apart (same ▸ made)
    rw [Env.extend, h.unmade x made, if_neg ne]
    rfl

/-- A name that is made up. -/
theorem extendMade (h : ScopeMirrors k scope scope') {name : Ident} {kind : SymbolKind}
    (made : k.MakesUp name.val) (plain : kind.isBinding = false) :
    ScopeMirrors k scope (Env.extend scope' name kind) where
  bindings x := by
    rw [Env.extend, ← h.bindings x]
    by_cases same : name.val = x
    · cases scope' x with
      | some d => rfl
      | none =>
        rw [if_pos same, Option.none_or]
        exact bindingOf_eq_none plain
    · rw [if_neg same, Option.or_none]
  bound x unmade := by
    have ne : name.val ≠ x := fun same ↦ unmade (same ▸ made)
    rw [Env.extend, if_neg ne, Option.or_none, h.bound x unmade]
  unmade := h.unmade

end ScopeMirrors

namespace Env

namespace Mirrors

variable {k : Expansion} {Γ Γ' : Env}

/-- Environments that mirror each other have as many scopes. -/
theorem length (h : Mirrors k Γ Γ') : Γ'.length = Γ.length := by
  induction h with
  | scope _ => rfl
  | inner _ _ ih => rw [List.length_cons, ih, List.length_cons]

private theorem head (h : Mirrors k Γ Γ') :
    ScopeMirrors k (Γ.headD emptyScope) (Γ'.headD emptyScope) := by
  cases h with
  | scope h => exact h
  | inner h _ => exact h

/-- Both environments with another innermost scope. -/
theorem withHead {scope scope' : String → Option Declaration} (h : Mirrors k Γ Γ')
    (mirrors : ScopeMirrors k scope scope') : Mirrors k (scope :: Γ.tail) (scope' :: Γ'.tail) := by
  cases h with
  | scope _ => exact .scope mirrors
  | inner _ outer => exact .inner mirrors outer

/-- Apart from names that are made up, the same names mean something. -/
theorem isSome_resolve (h : Mirrors k Γ Γ') {x : String} (unmade : ¬ k.MakesUp x) :
    (Γ'.resolve x).isSome = (Γ.resolve x).isSome := by
  induction h with
  | scope h =>
    rw [resolve_cons, resolve_cons, Option.isSome_or, Option.isSome_or, h.bound x unmade]
  | inner h _ ih =>
    rw [resolve_cons, resolve_cons, Option.isSome_or, Option.isSome_or, h.bound x unmade, ih]

/-- A name that is made up stands for no let or const binding. -/
theorem holder?_made (h : Mirrors k Γ Γ') {x : String} (made : k.MakesUp x) :
    Γ.holder? x = none ∧ Γ'.holder? x = none := by
  have step {scope scope' : String → Option Declaration} {Γ Γ' : Env}
    (h : ScopeMirrors k scope scope')
      (outer : Γ.holder? x = none ∧ Γ'.holder? x = none) :
      Env.holder? (scope :: Γ) x = none ∧ Env.holder? (scope' :: Γ') x = none := by
    rw [holder?_cons, holder?_cons, h.bindings x, h.unmade x made]
    refine ⟨outer.1, ?_⟩
    split
    · rfl
    · exact outer.2
  induction h with
  | scope h => exact step h ⟨rfl, rfl⟩
  | inner h _ ih => exact step h ih

/-- Names stand for the same let and const bindings. -/
theorem holder? (h : Mirrors k Γ Γ') (x : String) : Γ'.holder? x = Γ.holder? x := by
  rcases Classical.em (k.MakesUp x) with made | unmade
  · rw [(h.holder?_made made).1, (h.holder?_made made).2]
  · induction h with
    | scope h => rw [holder?_cons, holder?_cons, h.bound x unmade, h.bindings x]
    | inner h outer ih =>
      rw [holder?_cons, holder?_cons, h.bound x unmade, h.bindings x, outer.length, ih]

/-- The innermost scopes have the same let and const bindings. -/
theorem declares (h : Mirrors k Γ Γ') (x : Ident) : Γ'.Declares x ↔ Γ.Declares x := by
  rw [Declares, Declares, h.head.bindings]

/-- A declaration in both programs. -/
theorem bind (h : Mirrors k Γ Γ') (name : Ident) (kind : SymbolKind)
    (apart : ¬ k.MakesUp name.val) :
    Mirrors k (Γ.bind name kind) (Γ'.bind name kind) := h.withHead (h.head.extend name kind apart)

/-- The declaration of a name that is made up. -/
theorem bindMade (h : Mirrors k Γ Γ') {name : Ident} {kind : SymbolKind} (made : k.MakesUp name.val)
    (plain : kind.isBinding = false) : Mirrors k Γ (Γ'.bind name kind) := by
  cases h with
  | scope h => exact .scope (h.extendMade made plain)
  | inner h outer => exact .inner (h.extendMade made plain) outer

/-- A new scope in both programs. -/
theorem enter (h : Mirrors k Γ Γ') {kind : SymbolKind} (plain : kind.isBinding = false)
    {names names' : List Ident} (same : names'.map Located.val = names.map Located.val)
    (apart : ∀ name ∈ names, ¬ k.MakesUp name.val) :
    Mirrors k (Γ.enter kind names) (Γ'.enter kind names') := by
  have found (names : List Ident) (x : String) :
      (((names.find? (·.val = x)).map fun name ↦ (⟨kind, name.span⟩ : Declaration)).isSome = true)
        = (x ∈ names.map Located.val) := by
    simp [List.find?_isSome]
  have bare (d : Option Ident) :
      bindingOf (d.map fun name ↦ (⟨kind, name.span⟩ : Declaration)) = none := by
    cases d with
    | none => rfl
    | some name => exact bindingOf_eq_none plain
  rw [enter_eq, enter_eq]
  refine .inner ⟨fun x ↦ ?_, fun x _ ↦ ?_, fun x made ↦ ?_⟩ h
  · rw [bare, bare]
  · rw [Bool.eq_iff_iff, found, found, same]
  · rw [← Option.not_isSome_iff_eq_none, found]
    intro member
    obtain ⟨name, among, rfl⟩ := List.mem_map.1 member
    exact apart name among made

end Mirrors

end Env

/-! ## Declarations -/

section

-- the theorems of the mutual block share the hypothesis, and some need it for the others only
set_option linter.unusedSectionVars false

variable {k : Expansion} (branches : ∀ i, branchName i ∉ k.used)

include branches

/-- As a branch, a statement declares the same but for a name that is made up. -/
theorem Env.Mirrors.asBranch {Γ Δ : Env} {s : Statement} (mirrors : Δ.Mirrors k (s.envAfter true Γ))
    (i : Nat) : Δ.Mirrors k ((s.asBranch i).envAfter true Γ) := by
  apply s.asBranch_cases (P := fun t ↦ Δ.Mirrors k (t.envAfter true Γ)) mirrors
  rintro a rfl unnamed
  rw [Statement.envAfter_action, unnamed] at mirrors
  rw [Statement.envAfter]
  split
  · exact mirrors.bindMade ⟨branches i, .inr ⟨i, rfl⟩⟩ rfl
  · exact mirrors

mutual

/-- After a statement and its canonical form, the scopes mirror each other. -/
theorem Statement.canonical_mirrors {context : Context} (isBranch : Bool) {Γ Γ' : Env}
    (mirrors : Γ.Mirrors k Γ') :
    (s : Statement) →
      k.Covers (Visit.opened outsideDefinitions (.statement s) (s.visits outsideDefinitions)) →
      Yields (fun t ↦ (s.envAfter isBranch Γ).Mirrors k (t.envAfter isBranch Γ'))
        (s.canonical k context)
  | .binding kind ⟨name, _, _⟩, used => by
    obtain ⟨header, -⟩ := (covers_opened rfl).1 used
    have unmade := not_makesUp_of_mem (header name List.mem_cons_self)
    exact .bind (.any _) fun _ _ ↦ .pure (mirrors.bind name kind.symbolKind unmade)
  | .assignment ⟨name, _, _⟩, used => by
    obtain ⟨header, -⟩ := (covers_opened rfl).1 used
    have unmade := not_makesUp_of_mem (header name List.mem_cons_self)
    refine .bind (.any _) fun _ _ ↦ .pure ?_
    -- a branch declares the name in both programs or in neither
    have meaning : (Γ'.resolve name.val).isNone = (Γ.resolve name.val).isNone := by
      rw [← Option.not_isSome, ← Option.not_isSome, mirrors.isSome_resolve unmade]
    rw [Statement.envAfter, Statement.envAfter, meaning]
    split
    · exact mirrors.bind name .branch unmade
    · exact mirrors
  | .action a, used => by
    obtain ⟨-, within⟩ := (covers_opened rfl).1 used
    refine .bind (a.canonical_resultName k context) fun b same ↦ .pure ?_
    rw [Statement.envAfter_action, Statement.envAfter_action, same]
    cases result : a.resultName? with
    | none => exact mirrors
    | some name => exact mirrors.bind name .session (not_makesUp_of_mem (within.resultName result))
  | .parallel ⟨_, _, _, _, body, _⟩, used =>
    .bind (canonicalBranches_mirrors mirrors 0 body ((covers_opened rfl).1 used).2) fun _ h ↦
      .pure h
  | .comment _, _ | .importSkill _, _ | .agent _, _ | .throw _, _ => .pure mirrors
  | .forEach _, _ | .conditional _, _ =>
    .bind (.any _) fun _ _ ↦ .bind (.any _) fun _ _ ↦ .pure mirrors
  | .attempt _, _ =>
    .bind (.any _) fun _ _ ↦ .bind (.any _) fun _ _ ↦ .bind (.any _) fun _ _ ↦ .pure mirrors
  | .block _, _ | .repeated _, _ | .loop _, _ | .choice _, _ =>
    .bind (.any _) fun _ _ ↦ .pure mirrors

private theorem canonicalBranches_mirrors {context : Context} {Γ Γ' : Env}
    (mirrors : Γ.Mirrors k Γ') (i : Nat) :
    (body : List Statement) → k.Covers (bodyVisits outsideDefinitions body) →
      Yields (fun body' ↦ (bodyEnvAfter true Γ body).Mirrors k (bodyEnvAfter true Γ' body'))
        (canonicalBranches k context i body)
  | [], _ => .pure mirrors
  | s :: body, used => by
    obtain ⟨here, later⟩ := covers_bodyVisits.1 used
    refine .bind (s.canonical_mirrors true mirrors here) fun t after ↦ ?_
    split
    · exact .bind (canonicalBranches_mirrors (after.asBranch branches i) (i + 1) body later)
        fun _ h ↦ .pure h
    · exact .bind (canonicalBranches_mirrors after i body later) fun _ h ↦ .pure h

end

omit branches in
/-- The name of its result makes a statement of a sequence declare one more name that is made up. -/
theorem Statement.withName_mirrors {Γ Δ : Env} {s : Statement}
    (mirrors : Δ.Mirrors k (s.envAfter false Γ)) :
    Yields (fun t ↦ Δ.Mirrors k (t.envAfter false Γ)) (s.withName k) := by
  refine withName_yields (P := fun t ↦ Δ.Mirrors k (t.envAfter false Γ)) mirrors ?_
  rintro t name rfl unnamed - made
  rw [envAfter, unnamed] at mirrors
  exact mirrors.bindMade made rfl

/-- After the statements of a sequence and their canonical forms, the scopes mirror each other. -/
theorem canonicalBody_mirrors {context : Context} {Γ Γ' : Env} {body : List Statement}
    (mirrors : Γ.Mirrors k Γ') (used : k.Covers (bodyVisits outsideDefinitions body)) :
    Yields (fun body' ↦ (bodyEnvAfter false Γ body).Mirrors k (bodyEnvAfter false Γ' body'))
      (canonicalBody k context body) := by
  induction body generalizing context Γ Γ' with
  | nil => exact .pure mirrors
  | cons s body ih =>
    obtain ⟨here, later⟩ := covers_bodyVisits.1 used
    refine .bind (s.canonical_mirrors branches false mirrors here) fun t after ↦ ?_
    refine .bind (t.withName_mirrors after) fun u after' ↦ ?_
    exact .bind (ih after' later) fun _ h ↦ .pure h

end

end ProseLang
