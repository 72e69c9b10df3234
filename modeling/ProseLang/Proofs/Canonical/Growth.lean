import ProseLang.Canonical.Expansion
import ProseLang.Proofs.Validation.Validity
import ProseLang.Text.Decimal

/-!
# Names made up by expansion

Expansion gives names to the results of sessions and branches. The names of sessions are not in use
anywhere in the program (`anonymousName_freshIndex`), so where they are put they hide nothing. What
names mean in a canonical program is what they mean in the original one, with more names: this is
`Env.Grows`, which every declaration preserves.
-/

namespace ProseLang

/-! ## Numbered names -/

/-- Different numbers are written differently. -/
theorem toString_injective {m n : Nat} (h : toString m = toString n) : m = n := by
  have digits : Nat.toDigits 10 m = Nat.toDigits 10 n := String.ofList_injective h
  have same : some m = some n := by
    rw [← wholeNumber?_toDigits m, ← wholeNumber?_toDigits n, digits]
  exact Option.some.inj same

/-- Different numbers give different names. -/
theorem anonymousName_injective {m n : Nat} (h : anonymousName m = anonymousName n) : m = n :=
  toString_injective ((String.append_right_inj _).1 h)

/-- Sessions and branches get different names. -/
theorem anonymousName_ne_branchName (m n : Nat) : anonymousName m ≠ branchName n := by
  intro h
  have second := congrArg (fun name ↦ name.toList[1]?) h
  simp [anonymousName, branchName, String.toList_append] at second

/-- Names of branches start with an underscore. -/
theorem branchName_notMem {names : List String}
    (h : ∀ name ∈ names, name.toList.head? ≠ some '_') (n : Nat) : branchName n ∉ names :=
  fun member ↦ h _ member (by simp [branchName, String.toList_append])

private theorem start_le_leastFree (used : List String) (bound start : Nat) :
    start ≤ leastFree used bound start := by
  induction bound generalizing start with
  | zero => exact Nat.le_refl start
  | succ bound ih =>
    rw [leastFree]
    split
    · have := ih (start + 1)
      omega
    · exact Nat.le_refl start

/-- The search ends at a free name if it can skip as many as there are to skip, which `pool`
holds. -/
theorem anonymousName_leastFree {used pool : List String} {bound start : Nat}
    (taken : ∀ m, start ≤ m → anonymousName m ∈ used → anonymousName m ∈ pool)
    (enough : pool.length ≤ bound) : anonymousName (leastFree used bound start) ∉ used := by
  induction bound generalizing pool start with
  | zero =>
    intro member
    have inPool := taken start (Nat.le_refl start) member
    rw [List.length_eq_zero_iff.1 (Nat.le_zero.1 enough)] at inPool
    cases inPool
  | succ bound ih =>
    rw [leastFree]
    split
    · next inUse =>
      have member := taken start (Nat.le_refl start) (List.contains_iff_mem.1 inUse)
      apply @ih (pool.erase (anonymousName start)) (start + 1)
      · intro m later mem
        have apart : anonymousName m ≠ anonymousName start := by
          intro same
          have := anonymousName_injective same
          omega
        exact (List.mem_erase_of_ne apart).2 (taken m (by omega) mem)
      · rw [List.length_erase_of_mem member]
        omega
    · next free => simpa using free

/-- A new name for the result of a session is not in use. -/
theorem anonymousName_freshIndex (used : List String) (start : Nat) :
    anonymousName (freshIndex used start) ∉ used :=
  anonymousName_leastFree (fun _ _ member ↦ member) (Nat.le_refl _)

/-- A name with a new number has no smaller number than asked for. -/
theorem start_le_freshIndex (used : List String) (start : Nat) : start ≤ freshIndex used start :=
  start_le_leastFree used used.length start

/-! ## What names mean -/

/-- Whether a name is one that expansion makes up. -/
def Expansion.MakesUp (k : Expansion) (name : String) : Prop :=
  name ∉ k.used ∧ ((∃ n, name = anonymousName n) ∨ ∃ n, name = branchName n)

namespace Expansion

variable {k : Expansion}

/-- A name in use is not made up. -/
theorem not_makesUp_of_mem {name : String} (h : name ∈ k.used) : ¬ k.MakesUp name :=
  fun made ↦ made.1 h

/-- Names that are made up start with an underscore. -/
theorem not_makesUp_of_head {name : String} (h : name.toList.head? ≠ some '_') :
    ¬ k.MakesUp name := by
  rintro ⟨-, ⟨n, rfl⟩ | ⟨n, rfl⟩⟩
  · exact h (by simp [anonymousName, String.toList_append])
  · exact h (by simp [branchName, String.toList_append])

/-- A name with a new number is made up. -/
theorem makesUp_freshIndex (start : Nat) :
    k.MakesUp (anonymousName (freshIndex k.used start)) :=
  ⟨anonymousName_freshIndex k.used start, .inl ⟨_, rfl⟩⟩

end Expansion

/-- Whether a scope of a canonical program has the names of a scope of the original one, and apart
from these only made up names: of results, numbered below `n`, and of branches. -/
structure ScopeGrows (k : Expansion) (n : Nat) (scope scope' : String → Option Declaration) :
    Prop where
  kept : ∀ name, ¬ k.MakesUp name →
    (scope' name).map Declaration.kind = (scope name).map Declaration.kind
  unmade : ∀ name, k.MakesUp name → scope name = none
  anonymous : ∀ m, k.MakesUp (anonymousName m) → n ≤ m → scope' (anonymousName m) = none
  branch : ∀ i d, k.MakesUp (branchName i) → scope' (branchName i) = some d → d.kind = .branch

/-- Whether names mean in a canonical program what they mean in the original one, apart from the
names that are made up. -/
inductive Env.Grows (k : Expansion) (n : Nat) : Env → Env → Prop
  | scope {scope scope' : String → Option Declaration} (h : ScopeGrows k n scope scope') :
      Grows k n [scope] [scope']
  | inner {scope scope' : String → Option Declaration} {Γ Γ' : Env}
      (h : ScopeGrows k n scope scope') (outer : Grows k n Γ Γ') :
      Grows k n (scope :: Γ) (scope' :: Γ')

namespace ScopeGrows

variable {k : Expansion} {n : Nat} {scope scope' : String → Option Declaration}

private theorem mono {m : Nat} (h : ScopeGrows k n scope scope') (le : n ≤ m) :
    ScopeGrows k m scope scope' :=
  { h with anonymous := fun i made later ↦ h.anonymous i made (Nat.le_trans le later) }

/-- Without names, no scope grows. -/
theorem empty : ScopeGrows k n Env.emptyScope Env.emptyScope :=
  ⟨fun _ _ ↦ rfl, fun _ _ ↦ rfl, fun _ _ _ ↦ rfl, nofun⟩

/-- A name that is declared in both scopes. -/
theorem extend (h : ScopeGrows k n scope scope') {name name' : Ident} (kind : SymbolKind)
    (same : name'.val = name.val) (apart : ¬ k.MakesUp name.val) :
    ScopeGrows k n (Env.extend scope name kind) (Env.extend scope' name' kind) where
  kept other unmade := by
    have kept := h.kept other unmade
    rw [Env.extend, Env.extend, same, Option.map_or, Option.map_or, kept]
    congr 1
    split <;> rfl
  unmade other made := by
    have ne : name.val ≠ other := fun same ↦ apart (same ▸ made)
    rw [Env.extend, h.unmade other made, if_neg ne]
    rfl
  anonymous m made later := by
    have ne : name'.val ≠ anonymousName m := fun eq ↦ apart (by rwa [← same, eq])
    rw [Env.extend, h.anonymous m made later, if_neg ne]
    rfl
  branch i d made found := by
    have ne : name'.val ≠ branchName i := fun eq ↦ apart (by rwa [← same, eq])
    rw [Env.extend, if_neg ne, Option.or_none] at found
    exact h.branch i d made found

/-- The made up name of a branch. -/
theorem extend_branch (h : ScopeGrows k n scope scope') {i : Nat} {name : Ident}
    (is : name.val = branchName i) (made : k.MakesUp (branchName i)) :
    ScopeGrows k n scope (Env.extend scope' name .branch) where
  kept other unmade := by
    have ne : name.val ≠ other := by
      rintro rfl
      exact unmade (is ▸ made)
    rw [Env.extend, if_neg ne, Option.or_none]
    exact h.kept other unmade
  unmade := h.unmade
  anonymous m _ later := by
    have ne : name.val ≠ anonymousName m := fun eq ↦
      anonymousName_ne_branchName m i (eq.symm.trans is)
    rw [Env.extend, if_neg ne, Option.or_none]
    exact h.anonymous m ‹_› later
  branch j d made found := by
    rw [Env.extend] at found
    rcases Option.or_eq_some_iff.1 found with old | ⟨-, new⟩
    · exact h.branch j d made old
    · split at new
      · exact (Option.some.inj new) ▸ rfl
      · cases new

/-- The made up name of a result. -/
theorem extend_anonymous (h : ScopeGrows k n scope scope') {m : Nat} {name : Ident}
    (is : name.val = anonymousName m) (made : k.MakesUp (anonymousName m)) (later : n ≤ m)
    (kind : SymbolKind) : ScopeGrows k (m + 1) scope (Env.extend scope' name kind) where
  kept other unmade := by
    have ne : name.val ≠ other := by
      rintro rfl
      exact unmade (is ▸ made)
    rw [Env.extend, if_neg ne, Option.or_none]
    exact h.kept other unmade
  unmade := h.unmade
  anonymous i made' above := by
    have ne : name.val ≠ anonymousName i := by
      intro eq
      have := anonymousName_injective (is.symm.trans eq)
      omega
    rw [Env.extend, if_neg ne, Option.or_none]
    exact h.anonymous i made' (by omega)
  branch j d made' found := by
    have ne : name.val ≠ branchName j := fun eq ↦
      anonymousName_ne_branchName m j (is.symm.trans eq)
    rw [Env.extend, if_neg ne, Option.or_none] at found
    exact h.branch j d made' found

end ScopeGrows

namespace Env

/-- A declaration takes the meaning of no name away. -/
theorem binds_bind {Γ : Env} {name : Ident} (other : Ident) (kind : SymbolKind)
    (h : Γ.Binds name) : (Γ.bind other kind).Binds name := by
  rw [Binds] at h ⊢
  cases Γ with
  | nil => cases h
  | cons scope Γ =>
    rw [resolve_cons] at h
    rw [bind, List.headD_cons, List.tail_cons, resolve_cons, extend]
    cases found : scope name.val with
    | some d => rfl
    | none =>
      rw [found, Option.none_or] at h
      rw [Option.none_or]
      split
      · rfl
      · exact h

/-- A name that is bound means something. -/
theorem binds_bind_self (Γ : Env) (name : Ident) (kind : SymbolKind) :
    (Γ.bind name kind).Binds name := by
  rw [Binds, bind, resolve_cons, extend, if_pos rfl]
  cases Γ.headD emptyScope name.val <;> rfl

private theorem binds_foldl {Γ : Env} {name : Ident} (kind : SymbolKind) (names : List Ident)
    (h : Γ.Binds name) : (names.foldl (fun Δ other ↦ Δ.bind other kind) Γ).Binds name := by
  induction names generalizing Γ with
  | nil => exact h
  | cons other names ih => exact ih (binds_bind other kind h)

/-- What means something outside a scope does so inside. -/
theorem binds_enter {Γ : Env} {name : Ident} (kind : SymbolKind) (names : List Ident)
    (h : Γ.Binds name) : (Γ.enter kind names).Binds name := by
  apply binds_foldl
  rwa [Binds, resolve_cons]

/-- What a scope starts with means something in it. -/
theorem binds_enter_of_mem (Γ : Env) {name : Ident} (kind : SymbolKind) {names : List Ident}
    (h : name ∈ names) : (Γ.enter kind names).Binds name := by
  have each (Δ : Env) : (names.foldl (fun Δ other ↦ Δ.bind other kind) Δ).Binds name := by
    induction names generalizing Δ with
    | nil => cases h
    | cons other names ih =>
      rcases List.mem_cons.1 h with rfl | later
      · exact binds_foldl kind names (binds_bind_self Δ name kind)
      · exact ih later _
  exact each _

namespace Grows

variable {k : Expansion} {n : Nat} {Γ Γ' : Env}

/-- What grows up to a count of names grows up to a larger one. -/
theorem mono {m : Nat} (h : Grows k n Γ Γ') (le : n ≤ m) : Grows k m Γ Γ' := by
  induction h with
  | scope h => exact .scope (h.mono le)
  | inner h _ ih => exact .inner (h.mono le) ih

/-- Names that are not made up mean the same kind of thing in both programs. -/
theorem resolve (h : Grows k n Γ Γ') {name : String} (apart : ¬ k.MakesUp name) :
    (Γ'.resolve name).map Declaration.kind = (Γ.resolve name).map Declaration.kind := by
  induction h with
  | scope h =>
    rw [resolve_cons, resolve_cons, Option.map_or, Option.map_or, h.kept name apart]
  | inner h _ ih =>
    rw [resolve_cons, resolve_cons, Option.map_or, Option.map_or, h.kept name apart, ih]

private theorem resolve_made (h : Grows k n Γ Γ') {name : String} (made : k.MakesUp name) :
    Γ.resolve name = none := by
  induction h with
  | scope h =>
    rw [resolve_cons, h.unmade name made]
    rfl
  | inner h _ ih => rw [resolve_cons, h.unmade name made, ih, Option.none_or]

private theorem resolve_branch (h : Grows k n Γ Γ') {i : Nat} {d : Declaration}
    (made : k.MakesUp (branchName i)) (found : Γ'.resolve (branchName i) = some d) :
    d.kind = .branch := by
  induction h with
  | scope h =>
    rw [resolve_cons] at found
    rcases Option.or_eq_some_iff.1 found with here | ⟨-, outside⟩
    · exact h.branch i d made here
    · cases outside
  | inner h _ ih =>
    rw [resolve_cons] at found
    rcases Option.or_eq_some_iff.1 found with here | ⟨-, outside⟩
    · exact h.branch i d made here
    · exact ih outside

/-- A name that means something in the original program is not made up. -/
theorem not_makesUp (h : Grows k n Γ Γ') {name : Ident} (bound : Γ.Binds name) :
    ¬ k.MakesUp name.val := by
  intro made
  rw [Binds, h.resolve_made made] at bound
  cases bound

/-- What means something in the original program does so in the canonical one. -/
theorem binds (h : Grows k n Γ Γ') {name name' : Ident} (same : name'.val = name.val)
    (bound : Γ.Binds name) : Γ'.Binds name' := by
  have kinds := congrArg Option.isSome (h.resolve (h.not_makesUp bound))
  rw [Option.isSome_map, Option.isSome_map] at kinds
  rw [Binds, same, kinds]
  exact bound

private theorem head (h : Grows k n Γ Γ') :
    ScopeGrows k n (Γ.headD emptyScope) (Γ'.headD emptyScope) := by
  cases h with
  | scope h => exact h
  | inner h _ => exact h

/-- Both environments with another innermost scope. -/
theorem withHead {m : Nat} {scope scope' : String → Option Declaration} (h : Grows k n Γ Γ')
    (grows : ScopeGrows k m scope scope') (le : n ≤ m) :
    Grows k m (scope :: Γ.tail) (scope' :: Γ'.tail) := by
  cases h with
  | scope _ => exact .scope grows
  | inner _ outer => exact .inner grows (outer.mono le)

/-- A name that is not made up is free in both scopes or in none. -/
theorem lacks (h : Grows k n Γ Γ') {name : Ident} (apart : ¬ k.MakesUp name.val)
    (free : Γ.Lacks name) : Γ'.Lacks name := by
  have kinds := h.head.kept name.val apart
  rw [Lacks] at free
  rw [free] at kinds
  exact Option.map_eq_none_iff.1 kinds

/-- A name that is not made up may be assigned in both programs or in none. -/
theorem assigns (h : Grows k n Γ Γ') {name : Ident} {isBranch : Bool}
    (apart : ¬ k.MakesUp name.val) (may : Γ.Assigns isBranch name) : Γ'.Assigns isBranch name where
  bound inSequence := h.binds rfl (may.bound inSequence)
  writable d found := by
    have kinds := h.resolve apart
    rw [found] at kinds
    obtain ⟨d', found', same⟩ := Option.map_eq_some_iff.1 kinds.symm
    have writable := may.writable d' found'
    rwa [same] at writable

/-- A declaration in both programs. -/
theorem bind (h : Grows k n Γ Γ') {name name' : Ident} (kind : SymbolKind)
    (same : name'.val = name.val) (apart : ¬ k.MakesUp name.val) :
    Grows k n (Γ.bind name kind) (Γ'.bind name' kind) :=
  h.withHead (h.head.extend kind same apart) (Nat.le_refl n)

/-- A new scope in both programs. -/
theorem enter (h : Grows k n Γ Γ') (kind : SymbolKind) {names names' : List Ident}
    (same : names'.map Located.val = names.map Located.val)
    (apart : ∀ name ∈ names, ¬ k.MakesUp name.val) :
    Grows k n (Γ.enter kind names) (Γ'.enter kind names') := by
  have each (Δ Δ' : Env) (h : Grows k n Δ Δ') :
      Grows k n (names.foldl (fun Δ name ↦ Δ.bind name kind) Δ)
        (names'.foldl (fun Δ name ↦ Δ.bind name kind) Δ') := by
    induction names generalizing names' Δ Δ' with
    | nil =>
      obtain rfl : names' = [] := by simpa using same
      exact h
    | cons name names ih =>
      cases names' with
      | nil => cases same
      | cons name' names' =>
        obtain ⟨first, rest⟩ := List.cons.inj same
        apply ih rest fun other member ↦ apart other (List.mem_cons_of_mem _ member)
        exact h.bind kind first (apart name List.mem_cons_self)
  exact each _ _ (.inner .empty h)

/-- A new scope that starts with names in use, in both programs. -/
theorem enterUsed (h : Grows k n Γ Γ') (kind : SymbolKind) {names : List Ident}
    (used : ∀ name ∈ names, name.val ∈ k.used) :
    Grows k n (Γ.enter kind names) (Γ'.enter kind names) :=
  h.enter kind rfl fun name member ↦ Expansion.not_makesUp_of_mem (used name member)

/-- A new scope without names in both programs. -/
theorem enterPlain (h : Grows k n Γ Γ') :
    Grows k n (Γ.enter .bodyLocal []) (Γ'.enter .bodyLocal []) := .inner .empty h

/-- The made up name of a branch, where it means nothing yet. -/
theorem bind_branch (h : Grows k n Γ Γ') {i : Nat} {name : Ident} (is : name.val = branchName i)
    (made : k.MakesUp (branchName i)) : Grows k n Γ (Γ'.bind name .branch) := by
  have grows := h.withHead (h.head.extend_branch is made) (Nat.le_refl n)
  cases h with
  | scope _ => exact grows
  | inner _ _ => exact grows

/-- The made up name of a result. -/
theorem bind_anonymous (h : Grows k n Γ Γ') {m : Nat} {name : Ident}
    (is : name.val = anonymousName m) (made : k.MakesUp (anonymousName m)) (later : n ≤ m)
    (kind : SymbolKind) : Grows k (m + 1) Γ (Γ'.bind name kind) := by
  have grows := h.withHead (h.head.extend_anonymous is made later kind) (Nat.le_succ_of_le later)
  cases h with
  | scope _ => exact grows
  | inner _ _ => exact grows

/-- A name with a new number is free. -/
theorem lacks_anonymous (h : Grows k n Γ Γ') {m : Nat} {name : Ident}
    (is : name.val = anonymousName m) (made : k.MakesUp (anonymousName m)) (later : n ≤ m) :
    Γ'.Lacks name := by
  rw [Lacks, is]
  exact h.head.anonymous m made later

/-- The made up name of a branch can be assigned by a branch. -/
theorem assigns_branch (h : Grows k n Γ Γ') {i : Nat} {name : Ident} (is : name.val = branchName i)
    (made : k.MakesUp (branchName i)) : Γ'.Assigns true name where
  bound := nofun
  writable d found := by
    rw [is] at found
    rw [h.resolve_branch made found]
    rfl

end Grows

end Env

end ProseLang
