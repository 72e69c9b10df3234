import Mathlib.Data.List.Find
import Mathlib.Data.List.Perm.Basic
import ProseLang.Proofs.Editor.Stretches
import ProseLang.Proofs.Sorting

/-!
# The first highlight of each place

Sorting keeps the order of the highlights at one place, so what is left of highlights at a place is
the first of them that stood there (`Highlight.mem_firsts`). What is left is the same for any
highlights with the same first ones (`Highlight.firsts_congr`): for what is left of some, picked out
by a property that the highlights at one place share (`Highlight.filter_firsts`), and for some with
copies of them put in anywhere, if nothing else stands where the copies do
(`Highlight.Adopts.firsts`).
-/

namespace ProseLang

namespace Highlight

variable {a b h : Highlight} {gs hs : List Highlight}

/-- What is left of highlights: one for each place, in order. -/
def firsts (hs : List Highlight) : List Highlight := firstOfEach (hs.mergeSort inOrder)

/-- Whether a stretch starts before another. -/
def StartsBefore (a b : Highlight) : Prop :=
  a.line < b.line ∨ a.line = b.line ∧ a.start < b.start

/-! ## What is left at a place -/

private theorem mem_firstsAfter {last : Highlight}
    (sorted : (last :: hs).Pairwise fun a b ↦ a.inOrder b) :
    h ∈ firstsAfter last hs ↔ ¬ last.samePlace h ∧ hs.find? h.samePlace = some h := by
  induction hs generalizing last with
  | nil => simp [firstsAfter]
  | cons g hs ih =>
    obtain ⟨first, rest⟩ := List.pairwise_cons.1 sorted
    have before := first g List.mem_cons_self
    rw [firstsAfter]
    split
    · next same =>
      have others := (List.pairwise_cons.1 rest).2
      rw [ih (List.pairwise_cons.2 ⟨fun x hx ↦ first x (List.mem_cons_of_mem _ hx), others⟩)]
      refine and_congr_right fun apart ↦ ?_
      have skipped : ¬ h.samePlace g := by
        rw [samePlace_iff] at same apart ⊢
        omega
      rw [List.find?_cons_of_neg skipped]
    · next other =>
      rw [List.mem_cons, ih rest, samePlace_comm g]
      by_cases here : h.samePlace g
      · have behind : ¬ last.samePlace h := by
          rw [samePlace_iff] at here other ⊢
          omega
        rw [List.find?_cons_of_pos here]
        simp [behind, here, eq_comm]
      · have ne : h ≠ g := fun same ↦ here (same ▸ samePlace_iff.2 ⟨rfl, rfl⟩)
        rw [List.find?_cons_of_neg here]
        simp only [ne, false_or, here, Bool.false_eq_true, not_false_iff, true_and]
        refine (and_iff_right_of_imp fun found ↦ ?_).symm
        -- what comes later stands no earlier than `g`, which does not stand where `last` does
        have after := (List.pairwise_cons.1 rest).1 h (List.mem_of_find?_eq_some found)
        rw [inOrder_iff] at before after
        rw [samePlace_iff] at other ⊢
        omega

private theorem mem_firstOfEach (sorted : hs.Pairwise fun a b ↦ a.inOrder b) :
    h ∈ firstOfEach hs ↔ hs.find? h.samePlace = some h := by
  cases hs with
  | nil => simp [firstOfEach]
  | cons g hs =>
    rw [firstOfEach, List.mem_cons, mem_firstsAfter sorted, samePlace_comm]
    by_cases here : h.samePlace g
    · rw [List.find?_cons_of_pos here]
      simp [here, eq_comm]
    · have ne : h ≠ g := fun same ↦ here (same ▸ samePlace_iff.2 ⟨rfl, rfl⟩)
      rw [List.find?_cons_of_neg here]
      simp [ne, here]

private theorem samePlace_eq_level (h : Highlight) : h.samePlace = level inOrder h := by
  funext g
  rw [Bool.eq_iff_iff, samePlace_iff, level_iff, inOrder_iff, inOrder_iff]
  omega

/-- Sorting keeps the order of the highlights at one place. -/
theorem find?_sorted (h : Highlight) (hs : List Highlight) :
    (hs.mergeSort inOrder).find? h.samePlace = hs.find? h.samePlace := by
  rw [← List.head?_filter, ← List.head?_filter, samePlace_eq_level,
    filter_level_mergeSort inOrder_trans inOrder_total]

/-- What is left at a place is the first that stood there. -/
theorem mem_firsts : h ∈ firsts hs ↔ hs.find? h.samePlace = some h := by
  rw [firsts, mem_firstOfEach (pairwise_sorted hs), find?_sorted]

private theorem pairwise_firsts (hs : List Highlight) : (firsts hs).Pairwise StartsBefore := by
  refine pairwise_firstOfEach (fun h h' ↦ ?_) ((pairwise_sorted hs).imp fun order ↦ ?_)
  · unfold StartsBefore at *
    omega
  · rw [inOrder_iff] at order
    rw [samePlace_iff, StartsBefore]
    omega

/-- Highlights in order are known by their members. -/
theorem eq_of_mem_iff (hg : gs.Pairwise StartsBefore) (hh : hs.Pairwise StartsBefore)
    (same : ∀ h, h ∈ gs ↔ h ∈ hs) : gs = hs := by
  have ne {a b : Highlight} (before : a.StartsBefore b) : a ≠ b := by
    rintro rfl
    unfold StartsBefore at before
    omega
  refine List.Perm.eq_of_pairwise (fun a b _ _ ab ba ↦ ?_) hg hh ?_
  · unfold StartsBefore at ab ba
    omega
  · exact (List.perm_ext_iff_of_nodup (hg.imp ne) (hh.imp ne)).2 same

private theorem firsts_congr (same : ∀ h : Highlight, gs.find? h.samePlace = hs.find? h.samePlace) :
    firsts gs = firsts hs := by
  refine eq_of_mem_iff (pairwise_firsts gs) (pairwise_firsts hs) fun h ↦ ?_
  rw [mem_firsts, mem_firsts, same]

/-- A property that the highlights at one place share may be asked for before or after one of them
is chosen. -/
theorem filter_firsts {p : Highlight → Bool}
    (shared : ∀ a ∈ hs, ∀ b ∈ hs, a.samePlace b → p a = p b) :
    (firsts hs).filter p = firsts (hs.filter p) := by
  have agree {h : Highlight} (member : h ∈ hs) (holds : p h = true) :
      hs.find? (fun g ↦ p g ∧ h.samePlace g) = hs.find? h.samePlace := by
    refine List.find?_congr fun g hg ↦ ?_
    by_cases here : h.samePlace g
    · simp [here, ← shared h member g hg here, holds]
    · simp [here]
  refine eq_of_mem_iff ((pairwise_firsts hs).filter p) (pairwise_firsts _) fun h ↦ ?_
  rw [List.mem_filter, mem_firsts, mem_firsts, List.find?_filter]
  constructor
  · rintro ⟨found, holds⟩
    rw [agree (List.mem_of_find?_eq_some found) holds, found]
  · intro found
    have chosen := List.find?_some found
    have holds : p h = true := (of_decide_eq_true chosen).1
    rw [agree (List.mem_of_find?_eq_some found) holds] at found
    exact ⟨found, holds⟩

/-! ## Copies -/

/-- Whether highlights become others by taking in some of those given, in any number. -/
structure Adopts (given hs gs : List Highlight) : Prop where
  kept : hs.Sublist gs
  others : gs.filter (· ∉ given) = hs.filter (· ∉ given)

namespace Adopts

variable {given gs' hs' : List Highlight}

/-- Highlights adopt themselves. -/
theorem refl (hs : List Highlight) : Adopts given hs hs := ⟨.refl hs, rfl⟩

/-- Highlights adopt the same ones. -/
theorem of_eq (same : gs = hs) : Adopts given hs gs := by
  rw [same]
  exact refl hs

/-- What is given is taken in. -/
theorem taken (h : ∀ a ∈ gs, a ∈ given) : Adopts given [] gs where
  kept := List.nil_sublist gs
  others := by
    rw [List.filter_nil, List.filter_eq_nil_iff]
    exact fun a ha ↦ by simp [h a ha]

/-- Highlights one after the other adopt those that each of them adopts. -/
theorem append (h : Adopts given hs gs) (h' : Adopts given hs' gs') :
    Adopts given (hs ++ hs') (gs ++ gs') where
  kept := h.kept.append h'.kept
  others := by rw [List.filter_append, List.filter_append, h.others, h'.others]

/-- What is given instead of something missing is taken in. -/
theorem orElse {α : Type} {f : α → List Highlight} {x y : Option α}
    (h : ∀ a ∈ y, ∀ b ∈ f a, b ∈ given) : Adopts given (ofOption f x) (ofOption f (x <|> y)) := by
  cases x with
  | some a => exact refl _
  | none =>
    cases y with
    | none => exact refl []
    | some a => exact taken (h a rfl)

/-- Nothing else is taken in. -/
theorem mem_or_mem (h : Adopts given hs gs) (ha : a ∈ gs) : a ∈ given ∨ a ∈ hs := by
  by_cases own : a ∈ given
  · exact .inl own
  · have member : a ∈ gs.filter (· ∉ given) := List.mem_filter.2 ⟨ha, by simpa using own⟩
    rw [h.others] at member
    exact .inr (List.mem_of_mem_filter member)

/-- Copies do not matter where nothing else stands. -/
theorem firsts (h : Adopts given hs gs) (among : ∀ a ∈ given, a ∈ hs)
    (alone : ∀ a ∈ given, ∀ b ∈ hs, a.samePlace b → a = b) :
    Highlight.firsts gs = Highlight.firsts hs := by
  refine firsts_congr fun x ↦ ?_
  by_cases copied : ∃ a ∈ given, x.samePlace a
  · obtain ⟨a, ha, here⟩ := copied
    have first (ks : List Highlight) (member : a ∈ ks) (within : ∀ b ∈ ks, b ∈ hs) :
        ks.find? x.samePlace = some a := by
      obtain ⟨b, found⟩ := Option.isSome_iff_exists.1 (List.find?_isSome.2 ⟨a, member, here⟩)
      have there := List.find?_some found
      rw [samePlace_iff] at here there
      have same := alone a ha b (within b (List.mem_of_find?_eq_some found))
        (samePlace_iff.2 (by omega))
      rw [found, same]
    have within : ∀ b ∈ gs, b ∈ hs := fun b hb ↦ (h.mem_or_mem hb).elim (among b) id
    rw [first gs (h.kept.subset (among a ha)) within, first hs (among a ha) fun b hb ↦ hb]
  · have others (ks : List Highlight) :
        ks.find? x.samePlace = (ks.filter (· ∉ given)).find? x.samePlace := by
      rw [List.find?_filter]
      congr 1
      funext b
      by_cases there : x.samePlace b
      · have own : b ∉ given := fun hb ↦ copied ⟨b, hb, there⟩
        simp [there, own]
      · simp [there]
    rw [others gs, others hs, h.others]

end Adopts

end Highlight

end ProseLang
