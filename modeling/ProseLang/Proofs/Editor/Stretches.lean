import ProseLang.Editor.Highlight
import ProseLang.Proofs.Text.Lines
import ProseLang.Proofs.Token.Partition

/-!
# Stretches of a text

A highlight stands for a stretch of a line (`Highlight.Covers`). Of two stretches the one that ends
before the other starts precedes it (`Covers.precedes`). When no two highlights overlap but for
those at one place, sorting them and keeping one for each place leaves highlights that precede each
other (`Highlight.ordered_of_apart`).
-/

namespace ProseLang

/-! ## Cutting a text -/

/-- Of two starts of a text, the shorter one is a start of the longer one. -/
theorem prefix_of_utf8Length_le {a b text : List Char} (ha : a <+: text) (hb : b <+: text)
    (h : utf8Length a ≤ utf8Length b) : a <+: b := by
  rcases List.prefix_or_prefix_of_prefix ha hb with shorter | ⟨rest, rfl⟩
  · exact shorter
  · cases rest with
    | nil => simp
    | cons c rest =>
      have room := utf8Length_pos (List.cons_ne_nil c rest)
      rw [utf8Length_append] at h
      omega

/-- Two starts of a text with the same length are the same. -/
theorem eq_of_utf8Length_eq {a b text : List Char} (ha : a <+: text) (hb : b <+: text)
    (h : utf8Length a = utf8Length b) : a = b := by
  have one := prefix_of_utf8Length_le ha hb (Nat.le_of_eq h)
  have other := prefix_of_utf8Length_le hb ha (Nat.le_of_eq h.symm)
  exact one.eq_of_length_le other.length_le

/-- A start of a text is no longer than the text. -/
theorem utf8Length_le_of_isPrefix {a b : List Char} (h : a <+: b) :
    utf8Length a ≤ utf8Length b := by
  obtain ⟨rest, rfl⟩ := h
  rw [utf8Length_append]
  exact Nat.le_add_right _ _

/-- What goes on behind a place goes on with the character that stands there. -/
theorem prefix_append_singleton {before longer text : List Char} {c : Char}
    (here : before ++ [c] <+: text) (there : longer <+: text)
    (h : utf8Length before < utf8Length longer) : before ++ [c] <+: longer := by
  obtain ⟨rest, rfl⟩ :=
    prefix_of_utf8Length_le ((List.prefix_append _ _).trans here) there (Nat.le_of_lt h)
  cases rest with
  | nil => simp at h
  | cons d rest =>
    obtain ⟨after, rfl⟩ := here
    rw [List.append_assoc, List.prefix_append_right_inj] at there
    obtain ⟨rfl, -⟩ := List.cons_prefix_cons.1 there
    rw [List.prefix_append_right_inj]
    exact List.prefix_append [d] rest

/-- No part of a split has the separator in it. -/
theorem not_mem_of_mem_splitAtChar {sep : Char} {text part : List Char}
    (h : part ∈ splitAtChar sep text) : sep ∉ part := by
  induction text generalizing part with
  | nil =>
    rw [splitAtChar, List.mem_singleton] at h
    simp [h]
  | cons c text ih =>
    rw [splitAtChar] at h
    split at h
    · rcases List.mem_cons.1 h with rfl | h
      · exact List.not_mem_nil
      · exact ih h
    · next other =>
      split at h
      · next none => exact absurd none (splitAtChar_ne_nil sep text)
      · next first others cut =>
        rw [cut] at ih
        rcases List.mem_cons.1 h with rfl | h
        · have apart := ih List.mem_cons_self
          simp [apart, Ne.symm other]
        · exact ih (List.mem_cons_of_mem _ h)

section

variable {text inner first : List Char} {others : List (List Char)}

/-- What stands in front of a text, without a line feed, stands on its first line. -/
theorem splitAtChar_append (plain : '\n' ∉ inner) (h : splitAtChar '\n' text = first :: others) :
    splitAtChar '\n' (inner ++ text) = (inner ++ first) :: others := by
  induction inner with
  | nil => exact h
  | cons c inner ih =>
    obtain ⟨here, there⟩ := not_or.1 (mt List.mem_cons.2 plain)
    rw [List.cons_append, splitAtChar, if_neg (Ne.symm here), ih there]
    rfl

/-- The line that a text ends in goes on with the first line of what follows it. -/
theorem drop_splitAtChar (before : List Char) (h : splitAtChar '\n' text = first :: others) :
    (splitAtChar '\n' (before ++ text)).drop (before.count '\n')
      = (lastLine before ++ first) :: others := by
  induction before using List.reverseRecOn generalizing text first others with
  | nil => simpa [lastLine_nil] using h
  | append_singleton before c ih =>
    rw [List.append_assoc, List.singleton_append]
    by_cases feed : c = '\n'
    · subst feed
      have cut : splitAtChar '\n' ('\n' :: text) = [] :: first :: others := by
        rw [splitAtChar, if_pos rfl, h]
      rw [List.count_append, ← List.drop_drop, ih cut, lastLine_lineFeed]
      rfl
    · have plain : '\n' ∉ [c] := by simpa [eq_comm] using feed
      have cut : splitAtChar '\n' (c :: text) = (c :: first) :: others := splitAtChar_append plain h
      rw [List.count_append, List.count_eq_zero_of_not_mem plain, Nat.add_zero, ih cut,
        lastLine_append before plain, List.append_assoc]
      rfl

end

namespace Highlight

/-! ## Order -/

/-- Whether a stretch ends before another starts, on an earlier line or on the same one. -/
def Precedes (a b : Highlight) : Prop :=
  a.line < b.line ∨ a.line = b.line ∧ a.start + a.length ≤ b.start

/-- Whether two stretches start at the same place or do not overlap. -/
def Apart (a b : Highlight) : Prop := a.samePlace b ∨ a.Precedes b ∨ b.Precedes a

variable {a b c : Highlight} {hs : List Highlight}

private theorem Precedes.trans (h : a.Precedes b) (h' : b.Precedes c) : a.Precedes c := by
  unfold Precedes at *
  omega

/-- Two stretches start at the same place on the same line. -/
theorem samePlace_iff : a.samePlace b ↔ a.line = b.line ∧ a.start = b.start := by
  simp [samePlace]

/-- Stretches are in the order of their lines and of their starts within a line. -/
theorem inOrder_iff :
    a.inOrder b ↔ a.line < b.line ∨ a.line = b.line ∧ a.start ≤ b.start := by
  simp [inOrder]

/-- To start at the same place is symmetric. -/
theorem samePlace_comm (a b : Highlight) : a.samePlace b = b.samePlace a := by
  simp only [samePlace, eq_comm]

private theorem Apart.refl (a : Highlight) : a.Apart a := .inl (samePlace_iff.2 ⟨rfl, rfl⟩)

/-- To be apart is symmetric. -/
theorem Apart.symm (h : a.Apart b) : b.Apart a := by
  rcases h with same | before | after
  · obtain ⟨line, start⟩ := samePlace_iff.1 same
    exact .inl (samePlace_iff.2 ⟨line.symm, start.symm⟩)
  · exact .inr (.inr before)
  · exact .inr (.inl after)

/-- What precedes a stretch does not start where the stretch does. -/
theorem Precedes.not_samePlace (h : a.Precedes b) (room : 0 < a.length) : ¬ a.samePlace b := by
  rw [samePlace_iff]
  unfold Precedes at h
  omega

/-- Of two stretches that are apart, the one that starts no later precedes the other one or starts
where it does. -/
theorem Apart.of_inOrder (h : a.Apart b) (order : a.inOrder b) (room : 0 < b.length) :
    a.samePlace b ∨ a.Precedes b := by
  rcases h with same | before | after
  · exact .inl same
  · exact .inr before
  · rw [inOrder_iff] at order
    unfold Precedes at after
    omega

/-- The firsts of stretches in order come before each other, whatever before is taken to mean. -/
theorem pairwise_firstsAfter {R : Highlight → Highlight → Prop} {last : Highlight}
    (trans : ∀ {a b c}, R a b → R b c → R a c)
    (h : (last :: hs).Pairwise fun a b ↦ a.samePlace b ∨ R a b) :
    (last :: firstsAfter last hs).Pairwise R := by
  induction hs generalizing last with
  | nil => exact List.pairwise_singleton _ _
  | cons b hs ih =>
    obtain ⟨first, rest⟩ := List.pairwise_cons.1 h
    rw [firstsAfter]
    split
    · -- the stretch at the place of `last` is left out
      refine ih (List.pairwise_cons.2 ⟨fun x hx ↦ ?_, (List.pairwise_cons.1 rest).2⟩)
      exact first x (List.mem_cons_of_mem _ hx)
    · next other =>
      have before : R last b := (first b List.mem_cons_self).resolve_left other
      have later := ih rest
      refine List.pairwise_cons.2 ⟨fun x hx ↦ ?_, later⟩
      rcases List.mem_cons.1 hx with rfl | hx
      · exact before
      · exact trans before ((List.pairwise_cons.1 later).1 x hx)

/-- What holds of neighbours in order holds among the first highlights at each place. -/
theorem pairwise_firstOfEach {R : Highlight → Highlight → Prop}
    (trans : ∀ {a b c}, R a b → R b c → R a c)
    (h : hs.Pairwise fun a b ↦ a.samePlace b ∨ R a b) : (firstOfEach hs).Pairwise R := by
  cases hs with
  | nil => exact .nil
  | cons a hs => exact pairwise_firstsAfter trans h

/-- The order of highlights is transitive. -/
theorem inOrder_trans (a b c : Highlight) : a.inOrder b → b.inOrder c → a.inOrder c := by
  simp only [inOrder_iff]
  omega

/-- Any two highlights are in order one way or the other. -/
theorem inOrder_total (a b : Highlight) : (a.inOrder b || b.inOrder a) = true := by
  simp only [Bool.or_eq_true, inOrder_iff]
  omega

/-- Sorted highlights are in order. -/
theorem pairwise_sorted (hs : List Highlight) :
    (hs.mergeSort inOrder).Pairwise fun a b ↦ a.inOrder b :=
  List.pairwise_mergeSort inOrder_trans inOrder_total hs

/-- Stretches that are apart precede each other once they are sorted and one is kept for each
place. -/
theorem ordered_of_apart (room : ∀ a ∈ hs, 0 < a.length)
    (apart : ∀ a ∈ hs, ∀ b ∈ hs, a.Apart b) :
    (firstOfEach (hs.mergeSort inOrder)).Pairwise Precedes := by
  refine pairwise_firstOfEach Precedes.trans ?_
  refine (pairwise_sorted hs).imp_of_mem fun {a b} ha hb order ↦ ?_
  rw [List.mem_mergeSort] at ha hb
  exact (apart a ha b hb).of_inOrder order (room b hb)

/-! ## Stretches -/

/-- Whether a highlight stands for the text `inner`, which is on one line behind `before`, or for
the start of it. -/
structure Covers (text before inner : List Char) (h : Highlight) : Prop where
  cut : before ++ inner <+: text
  line : h.line = before.count '\n'
  start : h.start = utf16Length (lastLine before)
  plain : '\n' ∉ inner
  room : 0 < h.length
  fits : h.length ≤ utf16Length inner

namespace Covers

variable {text before inner before' inner' : List Char}

/-- A stretch that ends where another one starts, or earlier, precedes it. -/
theorem precedes (ha : a.Covers text before inner) (hb : b.Covers text before' inner')
    (h : utf8Length (before ++ inner) ≤ utf8Length before') : a.Precedes b := by
  obtain ⟨between, rfl⟩ :=
    prefix_of_utf8Length_le ha.cut ((List.prefix_append _ _).trans hb.cut) h
  have lines : b.line = a.line + between.count '\n' := by
    rw [hb.line, ha.line, List.count_append, List.count_append,
      List.count_eq_zero_of_not_mem ha.plain, Nat.add_zero]
  by_cases feed : '\n' ∈ between
  · have some := List.count_pos_iff.2 feed
    exact .inl (by omega)
  · rw [List.count_eq_zero_of_not_mem feed] at lines
    have start := hb.start
    rw [lastLine_append _ feed, lastLine_append _ ha.plain, utf16Length_append, utf16Length_append,
      ← ha.start] at start
    have fits := ha.fits
    exact .inr (by omega)

/-- Two stretches that start at the same offset start at the same place. -/
theorem samePlace (ha : a.Covers text before inner) (hb : b.Covers text before' inner')
    (h : utf8Length before = utf8Length before') : a.samePlace b := by
  have same := eq_of_utf8Length_eq ((List.prefix_append _ _).trans ha.cut)
    ((List.prefix_append _ _).trans hb.cut) h
  rw [samePlace_iff, ha.line, hb.line, ha.start, hb.start, same]
  exact ⟨rfl, rfl⟩

/-- A stretch of one character starts where any later one does, or precedes it. -/
theorem samePlace_or_precedes {c : Char} (ha : a.Covers text before [c])
    (hb : b.Covers text before' inner') (h : utf8Length before ≤ utf8Length before') :
    a.samePlace b ∨ a.Precedes b := by
  rcases Nat.eq_or_lt_of_le h with same | less
  · exact .inl (ha.samePlace hb same)
  · have upTo := prefix_append_singleton ha.cut ((List.prefix_append _ _).trans hb.cut) less
    exact .inr (ha.precedes hb (utf8Length_le_of_isPrefix upTo))

/-- A stretch lies within its line. -/
theorem within_line (h : a.Covers text before inner) :
    ∃ line, (splitAtChar '\n' text)[a.line]? = some line
      ∧ a.start + a.length ≤ utf16Length line := by
  obtain ⟨after, rfl⟩ := h.cut
  obtain ⟨first, others, cut⟩ := List.exists_cons_of_ne_nil (splitAtChar_ne_nil '\n' after)
  have lines := drop_splitAtChar before (splitAtChar_append h.plain cut)
  refine ⟨lastLine before ++ (inner ++ first), ?_, ?_⟩
  · rw [List.append_assoc, h.line, ← List.head?_drop, lines]
    rfl
  · have fits := h.fits
    rw [h.start, utf16Length_append, utf16Length_append]
    omega

end Covers

/-- Whether highlights stand for stretches between two offsets that precede each other. -/
structure Strip (text : List Char) (m n : Nat) (hs : List Highlight) : Prop where
  covers : ∀ h ∈ hs, ∃ before inner, h.Covers text before inner
    ∧ m ≤ utf8Length before ∧ utf8Length (before ++ inner) ≤ n
  ordered : hs.Pairwise Precedes

namespace Strip

variable {text : List Char} {m k n : Nat} {gs : List Highlight}

/-- No highlights stand for no stretches. -/
theorem nil : Strip text m n [] := ⟨fun _ h ↦ absurd h List.not_mem_nil, .nil⟩

/-- Highlights between two offsets are between wider ones. -/
theorem mono (h : Strip text m n hs) {m' n' : Nat} (hm : m' ≤ m) (hn : n ≤ n') :
    Strip text m' n' hs := by
  refine ⟨fun a ha ↦ ?_, h.ordered⟩
  obtain ⟨before, inner, covers, left, right⟩ := h.covers a ha
  exact ⟨before, inner, covers, Nat.le_trans hm left, Nat.le_trans right hn⟩

/-- Stretches before an offset precede those after it. -/
theorem precedes (h : Strip text m k hs) (h' : Strip text k n gs) (ha : a ∈ hs) (hb : b ∈ gs) :
    a.Precedes b := by
  obtain ⟨before, inner, covers, -, right⟩ := h.covers a ha
  obtain ⟨before', inner', covers', left, -⟩ := h'.covers b hb
  exact covers.precedes covers' (Nat.le_trans right left)

/-- Highlights up to an offset come before those from there on. -/
theorem append (h : Strip text m k hs) (h' : Strip text k n gs) (hm : m ≤ k) (hn : k ≤ n) :
    Strip text m n (hs ++ gs) where
  covers := List.forall_mem_append.2
    ⟨(h.mono (Nat.le_refl m) hn).covers, (h'.mono hm (Nat.le_refl n)).covers⟩
  ordered := List.pairwise_append.2
    ⟨h.ordered, h'.ordered, fun _ ha _ hb ↦ h.precedes h' ha hb⟩

/-- Stretches that precede each other are apart. -/
theorem apart (h : Strip text m n hs) (ha : a ∈ hs) (hb : b ∈ hs) : a.Apart b := by
  have symmetric : Std.Symm Apart := ⟨fun _ _ ↦ Apart.symm⟩
  have pairwise : hs.Pairwise Apart := h.ordered.imp fun before ↦ .inr (.inl before)
  exact pairwise.forall_of_forall (fun x _ ↦ Apart.refl x) ha hb

end Strip

end Highlight

end ProseLang
