import Mathlib.Data.List.Induction
import Mathlib.Data.List.Nodup
import Mathlib.Order.Bounds.Basic
import ProseLang.Canonical.Compilation
import ProseLang.Grammar.Parsing
import ProseLang.Proofs.Canonical.Spots
import ProseLang.Proofs.Program.Visits

/-!
# Names made up for sessions and branches

A session that is a statement of a sequence and has no name gets a numbered one, in the order of the
text, each with the least number that is greater than all numbers before it and whose name is not in
use (`canonical_numbers_sessions`). A branch that has no name gets that of its place in the block
(`canonical_numbers_branches`).

The names in use are those bound outside of settings (`Program.boundNames`). A name that is bound in
the settings of a session may be given once more (`compiled_name_bound_in_setting`), and names of
branches are not compared with any other (`compiled_branch_of_variable`).
-/

namespace ProseLang

open Expansion

/-! ## The search for a free number -/

private theorem leastFree_le {used : List String} {bound start m : Nat} (h : start ≤ m)
    (free : anonymousName m ∉ used) : leastFree used bound start ≤ m := by
  induction bound generalizing start with
  | zero => exact h
  | succ bound ih =>
    rw [leastFree]
    split
    · next taken =>
      have ne : start ≠ m := by
        rintro rfl
        exact free (List.contains_iff_mem.1 taken)
      exact ih (by omega)
    · exact h

/-- The search for a free number ends, at the least one. -/
theorem isLeast_freshIndex (used : List String) (start : Nat) :
    IsLeast {n | start ≤ n ∧ anonymousName n ∉ used} (freshIndex used start) := by
  constructor
  · exact ⟨start_le_freshIndex used start, anonymousName_freshIndex used start⟩
  · rintro n ⟨later, free⟩
    exact leastFree_le later free

/-- Whether each of some numbers is the least one from `start` on that is greater than all before it
and whose name is not in use. -/
def CountsFrom (used : List String) (start : Nat) (ns : List Nat) : Prop :=
  ∀ before n after, ns = before ++ n :: after →
    IsLeast {i | start ≤ i ∧ (∀ m ∈ before, m < i) ∧ anonymousName i ∉ used} n

namespace CountsFrom

variable {used : List String} {start : Nat} {ns : List Nat}

private theorem nil : CountsFrom used start [] := by
  intro before n after split
  cases before <;> cases split

/-- The next free number first, and the others after it. -/
theorem cons (h : CountsFrom used (freshIndex used start + 1) ns) :
    CountsFrom used start (freshIndex used start :: ns) := by
  intro before n after split
  have least := isLeast_freshIndex used start
  cases before with
  | nil =>
    obtain ⟨rfl, rfl⟩ := List.cons.inj split
    simpa using least
  | cons first before =>
    obtain ⟨rfl, rfl⟩ := List.cons.inj split
    have next := h before n after rfl
    have same : {i | start ≤ i ∧ (∀ m ∈ freshIndex used start :: before, m < i)
        ∧ anonymousName i ∉ used}
        = {i | freshIndex used start + 1 ≤ i ∧ (∀ m ∈ before, m < i) ∧ anonymousName i ∉ used} := by
      ext i
      have from_start := least.1.1
      simp only [Set.mem_ofPred_eq, List.forall_mem_cons]
      constructor
      · rintro ⟨-, ⟨above, later⟩, free⟩
        exact ⟨above, later, free⟩
      · rintro ⟨above, later, free⟩
        exact ⟨by omega, ⟨above, later⟩, free⟩
    rw [same]
    exact next

private theorem notMem_of_mem (h : CountsFrom used start ns) {n : Nat} (member : n ∈ ns) :
    anonymousName n ∉ used := by
  obtain ⟨before, after, split⟩ := List.append_of_mem member
  exact (h before n after split).1.2.2

private theorem pairwise (h : CountsFrom used start ns) : ns.Pairwise (· < ·) := by
  induction ns using List.reverseRecOn with
  | nil => exact .nil
  | append_singleton ns n ih =>
    have shorter : CountsFrom used start ns := by
      intro before m after split
      apply h before m (after ++ [n])
      rw [split, List.append_assoc, List.cons_append]
    have last := (h ns n [] rfl).1.2.1
    apply List.pairwise_append.2
    refine ⟨ih shorter, List.pairwise_singleton _ _, fun m hm i hi ↦ ?_⟩
    rw [List.mem_singleton.1 hi]
    exact last m hm

private theorem nodup (h : CountsFrom used start ns) : (ns.map anonymousName).Nodup := by
  apply List.Nodup.map
  · intro m n same
    exact anonymousName_injective same
  · exact h.pairwise.imp fun less ↦ Nat.ne_of_lt less

/-- Names count the same among names with the same members. -/
theorem congr {used' : List String} (h : CountsFrom used start ns)
    (same : ∀ name, name ∈ used' ↔ name ∈ used) : CountsFrom used' start ns := by
  intro before n after split
  simp only [same]
  exact h before n after split

end CountsFrom

/-! ## Sessions -/

/-- The session at a spot, if it is a statement of a sequence. -/
def Spot.sequenceSession? : Spot → Option Session
  | .session true _ s => some s
  | _ => none

/-- The sessions of a program that are statements of sequences, in order. -/
def Program.sequenceSessions (p : Program) : List Session := p.spots.filterMap Spot.sequenceSession?

/-- The names that sessions without one are given where they become others. -/
def givenNames (old new : List Session) : List (Option Ident) :=
  ((old.zip new).filter (·.1.name.isNone)).map (·.2.name)

private theorem givenNames_cons_none {s t : Session} {old new : List Session} (h : s.name = none) :
    givenNames (s :: old) (t :: new) = t.name :: givenNames old new := by
  simp [givenNames, h]

private theorem givenNames_cons_some {s t : Session} {old new : List Session} (h : s.name.isSome) :
    givenNames (s :: old) (t :: new) = givenNames old new := by
  obtain ⟨name, named⟩ := Option.isSome_iff_exists.1 h
  simp [givenNames, named]

/-- Whether a session keeps the name that it has. -/
def SessionOf.KeepsName (s t : Session) : Prop := ∀ name, s.name = some name → t.name = some name

/-- Whether sessions get numbered names where they have none, and keep them where they have one. -/
structure Numbered (ns : List Nat) (old new : List Session) : Prop where
  kept : Corresponds SessionOf.KeepsName old new
  given : givenNames old new = ns.map fun n ↦ some (.made (anonymousName n))

private theorem Expansion.Runs.numbered {k : Expansion} {n m : Nat} {xs xs' : List Spot}
    (h : k.Runs n xs xs' m) :
    ∃ ns, CountsFrom k.used n ns
      ∧ Numbered ns (xs.filterMap Spot.sequenceSession?) (xs'.filterMap Spot.sequenceSession?) := by
  induction h with
  | nil => exact ⟨[], .nil, .nil, rfl⟩
  | cons first _ ih =>
    obtain ⟨ns, counts, kept, given⟩ := ih
    cases first with
    | unnamed t unnamed old context =>
      refine ⟨freshIndex k.used _ :: ns, counts.cons, ?_, ?_⟩
      · refine Corresponds.cons ?_ kept
        intro name named
        rw [unnamed] at named
        cases named
      · rw [List.map_cons, ← given]
        exact givenNames_cons_none unnamed
    | session inSequence t named old context =>
      cases inSequence with
      | false => exact ⟨ns, counts, kept, given⟩
      | true =>
        have same := k.session_name context t
        refine ⟨ns, counts, ?_, ?_⟩
        · refine Corresponds.cons ?_ kept
          intro name is
          rw [same, is]
        · rw [← given]
          exact givenNames_cons_some (named rfl)
    | parallel => exact ⟨ns, counts, kept, given⟩
    | agent => exact ⟨ns, counts, kept, given⟩

/-- Sessions are numbered in order, each with the least number that is free. -/
theorem Program.numbered_sequenceSessions (p : Program) :
    ∃ ns, CountsFrom p.boundNames 0 ns ∧ Numbered ns p.sequenceSessions
    p.canonical.sequenceSessions := by
  obtain ⟨_, runs⟩ := p.runs_canonical
  exact runs.numbered

/-- Sessions without a name are given names that are pairwise distinct and not bound outside of
settings, each with the least number that comes after all those before it. If no name is bound in
settings only, this holds for all names that the program binds. -/
theorem canonical_numbers_sessions (p : Program) :
    ∃ ns, Numbered ns p.sequenceSessions p.canonical.sequenceSessions
      ∧ (ns.map anonymousName).Nodup
      ∧ CountsFrom p.boundNames 0 ns
      ∧ ((∀ name ∈ p.allNames, name ∈ p.boundNames) →
        (∀ n ∈ ns, anonymousName n ∉ p.allNames)
          ∧ CountsFrom p.allNames 0 ns
          ∧ ∀ start, IsLeast {n | start ≤ n ∧ anonymousName n ∉ p.allNames}
            (freshIndex p.boundNames start)) := by
  obtain ⟨ns, counts, numbered⟩ := p.numbered_sequenceSessions
  refine ⟨ns, numbered, counts.nodup, counts, fun outside ↦ ?_⟩
  have same (name : String) : name ∈ p.allNames ↔ name ∈ p.boundNames :=
    ⟨outside name, fun bound ↦ p.boundNames_subset bound⟩
  have all := counts.congr same
  refine ⟨fun n member ↦ all.notMem_of_mem member, all, fun start ↦ ?_⟩
  simp only [same]
  exact isLeast_freshIndex p.boundNames start

/-- Numbers whose names are bound are passed over. -/
theorem canonical_numbers_sessions_apart :
    let p := (parse "session \"a\"\nlet _anon_1 = session \"b\"\nsession \"c\"\n").program
    p.canonical.sequenceSessions.map (·.name.map Located.val) = [some "_anon_0", some "_anon_2"]
      ∧ ∃ ns, Numbered ns p.sequenceSessions p.canonical.sequenceSessions
        ∧ (∀ n ∈ ns, anonymousName n ∉ p.allNames) ∧ CountsFrom p.allNames 0 ns := by
  intro p
  obtain ⟨ns, numbered, -, -, all⟩ := canonical_numbers_sessions p
  have outside : ∀ name ∈ p.allNames, name ∈ p.boundNames := by decide +kernel
  obtain ⟨apart, counts, -⟩ := all outside
  exact ⟨by decide +kernel, ns, numbered, apart, counts⟩

/-- A name that is bound in the setting of a session is given to a session. -/
theorem compiled_name_bound_in_setting :
    let source := "session \"x\":\n  note: do:\n    let _anon_0 = session \"y\"\n"
    let p := (parse source).program
    (parse source).hasErrors = false
      ∧ ∃ c, compile p {} = .ok c
        ∧ c.program.sequenceSessions.map (·.name.map Located.val) = [some "_anon_0"]
        ∧ "_anon_0" ∈ p.allNames
        ∧ ¬∃ ns, Numbered ns p.sequenceSessions c.program.sequenceSessions
          ∧ ∀ n ∈ ns, anonymousName n ∉ p.allNames := by
  intro source p
  refine ⟨by decide +kernel, _, rfl, by decide +kernel, by decide +kernel, ?_⟩
  rintro ⟨ns, ⟨-, given⟩, apart⟩
  have made : givenNames p.sequenceSessions (compileCanonical p {}).program.sequenceSessions
      = [some (.made (anonymousName 0))] := by decide +kernel
  rw [made] at given
  obtain ⟨n, member, same⟩ : ∃ n ∈ ns, some (Located.made (anonymousName n))
      = some (Located.made (anonymousName 0)) := by
    apply List.mem_map.1
    rw [← given]
    exact List.mem_singleton_self _
  have zero : n = 0 := anonymousName_injective (congrArg Located.val (Option.some.inj same))
  apply apart n member
  rw [zero]
  decide +kernel

/-! ## Branches -/

/-- The parallel block that a part is. -/
def Visit.parallel? : Visit → Option Parallel
  | .statement (.parallel p) => some p
  | _ => none

/-- Every parallel block of a program, in order. -/
def Program.parallels (p : Program) : List Parallel := p.visits.filterMap Visit.parallel?

/-- The names that branches without one are given where they become others. -/
def madeNames (body body' : List Statement) : List Ident :=
  (body.zip body').filterMap fun x ↦ if x.1.boundName?.isNone then x.2.boundName? else none

/-- Whether a statement keeps the name of its result. -/
def Statement.KeepsName (s t : Statement) : Prop :=
  ∀ name, s.boundName? = some name → t.boundName? = some name

/-- Whether the branches of a block keep their names in another one, and those that have none are
named by numbers of branches, pairwise distinct, if they are named at all. -/
structure ParallelOf.NamesBranches (b b' : Parallel) : Prop where
  kept : Corresponds Statement.KeepsName b.body b'.body
  numbered : ∀ name ∈ madeNames b.body b'.body,
    ∃ i < (b.body.filter Statement.isExecutable).length, name = .made (branchName i)
  apart : ((madeNames b.body b'.body).map Located.val).Nodup

private theorem branchName_injective {m n : Nat} (h : branchName m = branchName n) : m = n :=
  toString_injective ((String.append_right_inj _).1 h)

private theorem Statement.isExecutable_of_isUnnamed {s : Statement} (h : s.isUnnamed = true) :
    s.isExecutable = true := by
  cases s with
  | action => rfl
  | _ => cases h

private theorem Statement.boundName_of_isUnnamed {s : Statement} (h : s.isUnnamed = true) :
    s.boundName? = none := by
  cases s with
  | action a =>
    rw [boundName_action]
    exact Option.isNone_iff_eq_none.1 h
  | _ => cases h

/-- The numbers of the branches that are named by them, from the `n`th that does something on. -/
def madeNumbers (n : Nat) : List Statement → List Nat
  | [] => []
  | s :: body =>
    (if s.isUnnamed then [n] else []) ++ madeNumbers (if s.isExecutable then n + 1 else n) body

private theorem mem_madeNumbers {n i : Nat} {body : List Statement} (h : i ∈ madeNumbers n body) :
    n ≤ i ∧ i < n + (body.filter Statement.isExecutable).length := by
  induction body generalizing n with
  | nil => cases h
  | cons s body ih =>
    rw [madeNumbers, List.mem_append] at h
    rcases h with here | later
    · split at here
      · next unnamed =>
        have active := s.isExecutable_of_isUnnamed unnamed
        rw [List.filter_cons_of_pos active, List.length_cons, List.mem_singleton.1 here]
        omega
      · cases here
    · have bounds := ih later
      by_cases active : s.isExecutable = true
      · rw [if_pos active] at bounds
        rw [List.filter_cons_of_pos active, List.length_cons]
        omega
      · rw [if_neg active] at bounds
        rw [List.filter_cons_of_neg active]
        exact bounds

private theorem pairwise_madeNumbers (n : Nat) (body : List Statement) :
    (madeNumbers n body).Pairwise (· < ·) := by
  induction body generalizing n with
  | nil => exact .nil
  | cons s body ih =>
    rw [madeNumbers]
    split
    · next unnamed =>
      rw [if_pos (s.isExecutable_of_isUnnamed unnamed)]
      apply List.Pairwise.cons
      · intro i member
        have := (mem_madeNumbers member).1
        omega
      · exact ih (n + 1)
    · exact ih _

section

variable {n : Nat} {body body' : List Statement}

/-- Branches are named as their results are. -/
theorem madeNames_of_results (h : body'.map Statement.boundName? = branchResults n body) :
    madeNames body body' = (madeNumbers n body).map fun i ↦ .made (branchName i) := by
  induction body generalizing n body' with
  | nil => rfl
  | cons s body ih =>
    cases body' with
    | nil => cases h
    | cons t rest =>
      obtain ⟨first, others⟩ := List.cons.inj h
      have later := ih others
      unfold madeNames at later ⊢
      rw [List.zip_cons_cons, madeNumbers, List.map_append, ← later]
      cases unnamed : s.isUnnamed with
      | true =>
        have bare := s.boundName_of_isUnnamed unnamed
        rw [unnamed] at first
        simp [bare, first]
      | false =>
        rw [unnamed] at first
        cases bound : s.boundName? with
        | none => simp [bound, first]
        | some name => simp [bound]

private theorem keepsNames_of_results (h : body'.map Statement.boundName? = branchResults n body) :
    Corresponds Statement.KeepsName body body' := by
  induction body generalizing n body' with
  | nil =>
    obtain rfl := List.map_eq_nil_iff.1 h
    exact .nil
  | cons s body ih =>
    cases body' with
    | nil => cases h
    | cons t rest =>
      obtain ⟨first, others⟩ := List.cons.inj h
      refine Corresponds.cons ?_ (ih others)
      intro name bound
      have named : s.isUnnamed ≠ true := by
        intro unnamed
        rw [s.boundName_of_isUnnamed unnamed] at bound
        cases bound
      rw [if_neg named] at first
      exact first.trans bound

end

private theorem ParallelOf.namesBranches_of_results {b b' : Parallel}
    (h : b'.body.map Statement.boundName? = branchResults 0 b.body) : b.NamesBranches b' := by
  have made := madeNames_of_results h
  refine ⟨keepsNames_of_results h, ?_, ?_⟩
  · rw [made]
    intro name member
    obtain ⟨i, among, rfl⟩ := List.mem_map.1 member
    have bounds := mem_madeNumbers among
    exact ⟨i, by omega, rfl⟩
  · rw [made, List.map_map]
    apply List.Nodup.map
    · intro i j same
      exact branchName_injective same
    · exact (pairwise_madeNumbers 0 b.body).imp fun less ↦ Nat.ne_of_lt less

/-- A block that stays as it is gets no names. -/
theorem ParallelOf.namesBranches_refl (b : Parallel) : b.NamesBranches b := by
  have none_made : madeNames b.body b.body = [] := by
    unfold madeNames
    induction b.body with
    | nil => rfl
    | cons s body ih =>
      rw [List.zip_cons_cons, List.filterMap_cons, ih]
      cases s.boundName? <;> rfl
  refine ⟨.refl (fun _ _ bound ↦ bound) _, ?_, ?_⟩
  · rw [none_made]
    intro name member
    cases member
  · rw [none_made]
    exact .nil

/-- The parallel blocks at a spot and in the settings there. -/
def Spot.parallels : Spot → List Parallel := Spot.found (fun _ ↦ true) fun v ↦ v.parallel?.toList

private theorem Program.parallels_eq (p : Program) :
    p.parallels = p.spots.flatMap Spot.parallels := by
  have only : ∀ v : Visit, v.isSpot = false → v.parallel?.toList = [] := by
    intro v plain
    cases v with
    | statement s =>
      cases s with
      | parallel => cases plain
      | _ => rfl
    | _ => rfl
  have found := p.flatMap_spots only (fun _ _ ↦ rfl)
  rw [parallels, List.filterMap_eq_flatMap_toList]
  exact found

/-- Expansion leaves the parallel blocks in the settings of a session as they are. -/
theorem Expansion.parallels_session (k : Expansion) (inSequence : Bool) (old context : Context)
    (s : Session) (name : Option Ident) :
    Spot.parallels (.session inSequence context { k.session context s with name })
      = Spot.parallels (.session inSequence old s) := by
  have kept : (k.withAgent s).properties = s.properties := by
    unfold withAgent
    split <;> rfl
  have settings (t : Session) (given : Context) : Spot.parallels (.session inSequence given t)
      = (propertyVisits (fun _ ↦ true) t.properties).flatMap fun v ↦ v.parallel?.toList := by
    rcases t with ⟨_, _ | prompt, _⟩ <;> rfl
  rw [settings, settings]
  change (propertyVisits _ (k.withAgent s).properties).flatMap _ = _
  rw [kept]

private theorem Expansion.Runs.namesBranches {k : Expansion} {n m : Nat} {xs xs' : List Spot}
    (h : k.Runs n xs xs' m) :
    Corresponds ParallelOf.NamesBranches (xs.flatMap Spot.parallels)
    (xs'.flatMap Spot.parallels) := by
  induction h with
  | nil => exact .nil
  | cons first _ ih =>
    rw [List.flatMap_cons, List.flatMap_cons]
    refine Corresponds.append ?_ ih
    cases first with
    | unnamed t _ old context =>
      rw [k.parallels_session true old context t]
      exact .refl ParallelOf.namesBranches_refl _
    | session inSequence t _ old context =>
      have same := k.parallels_session inSequence old context t (k.session context t).name
      rw [same]
      exact .refl ParallelOf.namesBranches_refl _
    | parallel h => exact .singleton (ParallelOf.namesBranches_of_results h)
    | agent => exact .refl ParallelOf.namesBranches_refl _

/-- Branches without a name are given names that are pairwise distinct in their block, made of
numbers of branches. If the program binds no such name, it binds none of them. -/
theorem canonical_numbers_branches (p : Program) :
    Corresponds ParallelOf.NamesBranches p.parallels p.canonical.parallels
      ∧ ((∀ i, branchName i ∉ p.allNames) →
        ∀ x ∈ p.parallels.zip p.canonical.parallels, ∀ name ∈ madeNames x.1.body x.2.body,
          name.val ∉ p.allNames) := by
  have named : Corresponds ParallelOf.NamesBranches p.parallels p.canonical.parallels := by
    obtain ⟨_, runs⟩ := p.runs_canonical
    rw [p.parallels_eq, p.canonical.parallels_eq]
    exact runs.namesBranches
  refine ⟨named, fun free x pair name made ↦ ?_⟩
  obtain ⟨i, -, rfl⟩ := (named.each x pair).numbered name made
  exact free i

/-- Branches with and without names beside each other. -/
theorem canonical_numbers_branches_mixed :
    let source := "parallel:\n  x = session \"a\"\n  session \"b\"\n  do:\n    session \"c\"\n"
    let p := (parse source).program
    (p.canonical.parallels.map (·.branchNames.map Located.val)) = [["x", "_branch_1", "_branch_2"]]
      ∧ ∀ x ∈ p.parallels.zip p.canonical.parallels, ∀ name ∈ madeNames x.1.body x.2.body,
        name.val ∉ p.allNames := by
  intro source p
  have free (i : Nat) : branchName i ∉ p.allNames := branchName_notMem (by decide +kernel) i
  exact ⟨by decide +kernel, (canonical_numbers_branches p).2 free⟩

/-- A branch is given the name of a variable that is used in it. -/
theorem compiled_branch_of_variable :
    let source := "let _branch_0 = session \"a\"\nparallel:\n  session \"b {_branch_0}\"\n"
    let p := (parse source).program
    (parse source).hasErrors = false ∧ (validate p {}).isValid = true
      ∧ ∃ c, compile p {} = .ok c
        ∧ (p.parallels.zip c.program.parallels).flatMap (fun x ↦ madeNames x.1.body x.2.body)
          = [.made "_branch_0"]
        ∧ "_branch_0" ∈ p.allNames :=
  ⟨by decide +kernel, by decide +kernel, _, rfl, by decide +kernel, by decide +kernel⟩

end ProseLang
