import Mathlib.Data.List.Perm.Basic

/-!
# Stable sorting

Rearranging a list changes nothing where one element at most is looked for (`filter_of_perm`,
`find?_of_perm`). Sorting keeps the order of elements that are level with each other
(`filter_level_mergeSort`), and a sorted list is known by its elements on each level
(`eq_of_filter_level`). So lists with the same elements on each level, in the same order there, are
sorted into the same list (`mergeSort_congr`), and to sort what is left of a list is to sort the
list and to leave out the same (`mergeSort_filter`).
-/

namespace ProseLang

/-- Whether neither of two elements comes before the other. -/
def level {α : Type} (le : α → α → Bool) (a b : α) : Bool := le a b && le b a

section

variable {α : Type} {le : α → α → Bool} {l m : List α}

/-- Two elements are level if each of them may come before the other. -/
theorem level_iff {a b : α} : level le a b = true ↔ le a b = true ∧ le b a = true :=
  Bool.and_eq_true_iff

private theorem level_self (total : ∀ a b, (le a b || le b a) = true) (a : α) :
    level le a a = true := by
  have related := total a a
  rw [Bool.or_self] at related
  exact level_iff.2 ⟨related, related⟩

/-- Rearranging a list leaves what is kept of it as it is, if that is one element at most. -/
theorem filter_of_perm {keep : α → Bool} (same : l.Perm m)
    (single : l.Pairwise fun a b ↦ keep a = true → keep b = false) :
    l.filter keep = m.filter keep := by
  have perm := same.filter keep
  have few := single.filter keep
  have kept : ∀ a ∈ l.filter keep, keep a = true := fun a ha ↦ (List.mem_filter.1 ha).2
  generalize l.filter keep = left at perm few kept
  match left with
  | [] => exact (List.nil_perm.1 perm).symm
  | [a] => exact List.singleton_perm.1 perm
  | a :: b :: left =>
    have none := (List.pairwise_cons.1 few).1 b List.mem_cons_self (kept a List.mem_cons_self)
    exact Bool.noConfusion (none.symm.trans (kept b (List.mem_cons_of_mem a List.mem_cons_self)))

/-- Of elements with different keys, the one with a key is found in whatever order. -/
theorem find?_of_perm {β : Type} [DecidableEq β] {key : α → β} (same : l.Perm m)
    (distinct : (l.map key).Nodup) (x : β) :
    l.find? (fun a ↦ key a = x) = m.find? fun a ↦ key a = x := by
  rw [← List.head?_filter, ← List.head?_filter]
  refine congrArg List.head? (filter_of_perm same ((List.pairwise_map.1 distinct).imp ?_))
  exact fun {a b} differ first ↦ decide_eq_false fun second ↦
    differ ((of_decide_eq_true first).trans second.symm)

/-- A sorted list is known by its elements on each level. -/
theorem eq_of_filter_level (total : ∀ a b, (le a b || le b a) = true)
    (hl : l.Pairwise fun a b ↦ le a b) (hm : m.Pairwise fun a b ↦ le a b)
    (same : ∀ a, l.filter (level le a) = m.filter (level le a)) : l = m := by
  have mem {a : α} {l m : List α} (same : l.filter (level le a) = m.filter (level le a))
    (h : a ∈ l) :
      a ∈ m := by
    have kept : a ∈ m.filter (level le a) := same ▸ List.mem_filter.2 ⟨h, level_self total a⟩
    exact (List.mem_filter.1 kept).1
  induction l generalizing m with
  | nil =>
    cases m with
    | nil => rfl
    | cons b m => exact absurd (mem (same b).symm List.mem_cons_self) List.not_mem_nil
  | cons a l ih =>
    cases m with
    | nil => exact absurd (mem (same a) List.mem_cons_self) List.not_mem_nil
    | cons b m =>
      obtain ⟨firstOfLeft, restOfLeft⟩ := List.pairwise_cons.1 hl
      obtain ⟨firstOfRight, restOfRight⟩ := List.pairwise_cons.1 hm
      have related := level_self total
      -- both lists start with the first of their elements, so with elements on one level
      have before : le a b = true := by
        rcases List.mem_cons.1 (mem (same b).symm List.mem_cons_self) with rfl | later
        · exact (level_iff.1 (related b)).1
        · exact firstOfLeft b later
      have behind : le b a = true := by
        rcases List.mem_cons.1 (mem (same a) List.mem_cons_self) with rfl | later
        · exact (level_iff.1 (related a)).1
        · exact firstOfRight a later
      have start := same a
      rw [List.filter_cons_of_pos (related a),
        List.filter_cons_of_pos (level_iff.2 ⟨before, behind⟩)] at start
      obtain rfl := (List.cons.inj start).1
      refine congrArg (a :: ·) (ih restOfLeft restOfRight fun c ↦ ?_)
      have rest := same c
      by_cases here : level le c a = true
      · rw [List.filter_cons_of_pos here, List.filter_cons_of_pos here] at rest
        exact (List.cons.inj rest).2
      · rwa [List.filter_cons_of_neg here, List.filter_cons_of_neg here] at rest

variable (trans : ∀ a b c, le a b = true → le b c = true → le a c = true)
  (total : ∀ a b, (le a b || le b a) = true)
include trans total

/-- Sorting keeps the order of the elements on one level. -/
theorem filter_level_mergeSort (l : List α) (a : α) :
    (l.mergeSort le).filter (level le a) = l.filter (level le a) := by
  have even : (l.filter (level le a)).Pairwise fun a b ↦ le a b := by
    refine List.pairwise_of_forall_mem_list fun b hb c hc ↦ ?_
    have back := (level_iff.1 (List.mem_filter.1 hb).2).2
    exact trans b a c back (level_iff.1 (List.mem_filter.1 hc).2).1
  have kept := (List.sublist_mergeSort trans total even List.filter_sublist).filter (level le a)
  rw [List.filter_filter] at kept
  simp only [Bool.and_self] at kept
  have size := ((List.mergeSort_perm l le).filter (level le a)).length_eq
  exact (kept.eq_of_length size.symm).symm

omit total in
/-- Lists with the same elements, no two of them on one level, have the same on each level. -/
theorem filter_level_of_perm (same : l.Perm m)
    (apart : l.Pairwise fun a b ↦ level le a b = false) (a : α) :
    l.filter (level le a) = m.filter (level le a) := by
  refine filter_of_perm same (apart.imp fun {b c} apart hb ↦ Bool.eq_false_iff.2 fun hc ↦ ?_)
  obtain ⟨before, behind⟩ := level_iff.1 hb
  obtain ⟨before', behind'⟩ := level_iff.1 hc
  have related := level_iff.2 ⟨trans b a c behind before', trans c a b behind' before⟩
  exact Bool.noConfusion (related.symm.trans apart)

/-- Lists with the same elements on each level are sorted into the same list. -/
theorem mergeSort_congr (same : ∀ a, l.filter (level le a) = m.filter (level le a)) :
    l.mergeSort le = m.mergeSort le := by
  refine eq_of_filter_level total (List.pairwise_mergeSort trans total l)
    (List.pairwise_mergeSort trans total m) fun a ↦ ?_
  rw [filter_level_mergeSort trans total, filter_level_mergeSort trans total, same]

/-- What is left of a list is sorted as in the list. -/
theorem mergeSort_filter (l : List α) (keep : α → Bool) :
    (l.filter keep).mergeSort le = (l.mergeSort le).filter keep := by
  refine eq_of_filter_level total (List.pairwise_mergeSort trans total _)
    ((List.pairwise_mergeSort trans total l).filter keep) fun a ↦ ?_
  rw [filter_level_mergeSort trans total, List.filter_comm, ← filter_level_mergeSort trans total l,
    List.filter_comm]

end

end ProseLang
