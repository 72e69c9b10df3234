import ProseLang.Editor.Deltas
import ProseLang.Proofs.Editor.Styles

/-!
# Highlights read back

What an editor is sent is five numbers for each highlight. An editor groups the numbers by five,
adds the distances up and looks kinds and modifiers up in the legend. Stretches in the order of the
text come back as they were, and then no distance is cut short: each of them is the difference of
two places (`encode_signed`). Main statement: both hold of any stretches in order, and an editor
reads the highlights of a program off the numbers that it is sent (`encoded_read_back`).
-/

namespace ProseLang

/-- Whether a stretch starts no later than another. -/
def Stretch.NoLater (a b : Stretch) : Prop :=
  a.line < b.line ∨ a.line = b.line ∧ a.start ≤ b.start

namespace Delta

/-- The distances between stretches, the first from the given line and start, as differences that
may be negative. -/
def signedFrom (line start : Nat) : List Stretch → List (Int × Int)
  | [] => []
  | s :: ss =>
    let lines : Int := s.line - line
    (lines, if lines = 0 then s.start - start else s.start) :: signedFrom s.line s.start ss

/-- The distances between stretches, the first from the start of the text. -/
def signed (ss : List Stretch) : List (Int × Int) := signedFrom 0 0 ss

/-- The distances that numbers stand for, five for each of them. -/
def ofNumbers? : List Nat → Option (List Delta)
  | [] => some []
  | lines :: units :: length :: kind :: modifiers :: rest =>
    (ofNumbers? rest).map (⟨lines, units, length, kind, modifiers⟩ :: ·)
  | _ => none

private theorem leadsOn_of_pairwise {line start : Nat} {ss : List Stretch}
    (first : ∀ s ∈ ss, line < s.line ∨ line = s.line ∧ start ≤ s.start)
    (ordered : ss.Pairwise Stretch.NoLater) : leadsOn line start ss = true := by
  induction ss generalizing line start with
  | nil => rfl
  | cons s ss ih =>
    obtain ⟨next, rest⟩ := List.pairwise_cons.1 ordered
    simp only [leadsOn, Bool.and_eq_true, Bool.or_eq_true, decide_eq_true_eq]
    exact ⟨first s List.mem_cons_self, ih next rest⟩

/-- Stretches in the order of the text lead on from its start. -/
theorem leadsOn_of_ordered {ss : List Stretch} (ordered : ss.Pairwise Stretch.NoLater) :
    leadsOn 0 0 ss = true :=
  leadsOn_of_pairwise (fun _ _ ↦ by omega) ordered

/-- Where stretches lead on, no distance is cut short. -/
theorem encodeFrom_signed {line start : Nat} {ss : List Stretch}
    (h : leadsOn line start ss = true) :
    (encodeFrom line start ss).map (fun d ↦ ((d.lines : Int), (d.units : Int)))
      = signedFrom line start ss := by
  induction ss generalizing line start with
  | nil => rfl
  | cons s ss ih =>
    simp only [leadsOn, Bool.and_eq_true, Bool.or_eq_true, decide_eq_true_eq] at h
    obtain ⟨further, rest⟩ := h
    have lines : ((s.line - line : Nat) : Int) = s.line - line := by omega
    have units : ((if s.line - line = 0 then s.start - start else s.start : Nat) : Int)
        = if (s.line : Int) - line = 0 then (s.start : Int) - start else s.start := by
      split <;> split <;> omega
    simp only [encodeFrom, signedFrom, List.map_cons, lines, units, ih rest]

/-- The distances between stretches in the order of the text are not cut short. -/
theorem encode_signed {ss : List Stretch} (ordered : ss.Pairwise Stretch.NoLater) :
    (encode ss).map (fun d ↦ ((d.lines : Int), (d.units : Int))) = signed ss :=
  encodeFrom_signed (leadsOn_of_ordered ordered)

private theorem ofNumbers?_flatMap (ds : List Delta) :
    ofNumbers? (ds.flatMap numbers) = some ds := by
  induction ds with
  | nil => rfl
  | cons d ds ih =>
    rw [List.flatMap_cons]
    simp only [numbers, List.cons_append, List.nil_append, ofNumbers?, ih, Option.map_some]

end Delta

/-! ## Kinds and modifiers -/

/-- The modifiers whose bits are set. -/
def HighlightModifier.ofBits (n : Nat) : List HighlightModifier :=
  all.filter fun m ↦ n / m.bit % 2 = 1

namespace Highlight

/-- The highlight that a stretch stands for, if there is a kind of its number. -/
def ofStretch? (s : Stretch) : Option Highlight :=
  (HighlightKind.all[s.kind]?).map fun kind ↦
    ⟨s.line, s.start, s.length, kind, HighlightModifier.ofBits s.modifiers⟩

/-- The highlights that the numbers sent to an editor stand for. -/
def ofNumbers? (ns : List Nat) : Option (List Highlight) :=
  (Delta.ofNumbers? ns).bind fun ds ↦ (Delta.decode ds).mapM ofStretch?

/-- Whether the modifiers of highlights are told apart by their bits: none is repeated, and they are
in the order of the bits. -/
def Legible (hs : List Highlight) : Prop :=
  ∀ h ∈ hs, HighlightModifier.ofBits h.bits = h.modifiers

private theorem mapM_ofStretch? {hs : List Highlight} (legible : Legible hs) :
    (hs.map stretch).mapM ofStretch? = some hs := by
  induction hs with
  | nil => rfl
  | cons h hs ih =>
    obtain ⟨first, rest⟩ := List.forall_mem_cons.1 legible
    have back : ofStretch? h.stretch = some h := by
      simp only [ofStretch?, stretch, HighlightKind.getElem?_index, Option.map_some, first]
    simp [back, ih rest]

/-- The bits of the modifiers that highlights have are told apart. -/
theorem legible_of_listed {h : Highlight} (listed : h.modifiers ∈ modifierLists) :
    HighlightModifier.ofBits h.bits = h.modifiers := by
  rw [bits]
  rcases mem_modifierLists.1 listed with same | same | same | same <;> rw [same] <;> rfl

private theorem legible_marked {kind : HighlightKind} {hs : List Highlight}
    (marked : Marked kind [] hs) : Legible hs :=
  fun h member ↦ legible_of_listed (by simp [(marked h member).2])

end Highlight

open Highlight

/-- The modifiers of whatever is highlighted of a part are told apart by their bits. -/
theorem Visit.legible_highlights (v : Visit) : Legible v.highlights := by
  rw [v.highlights_eq]
  refine List.forall_mem_append.2 ⟨fun h member ↦
    legible_of_listed (v.styled h member).modifiers, ?_⟩
  cases v.arrow? with
  | none => exact fun _ member ↦ absurd member List.not_mem_nil
  | some => exact legible_marked marked_ofSpan

private theorem Program.legible_highlights (p : Program) : Legible p.highlights := by
  intro h member
  have was := List.mem_mergeSort.1 (mem_of_mem_firstOfEach member)
  rcases List.mem_append.1 was with comment | part
  · obtain ⟨c, -, comment⟩ := List.mem_flatMap.1 comment
    exact legible_marked marked_ofText h comment
  · obtain ⟨v, -, part⟩ := List.mem_flatMap.1 part
    exact v.legible_highlights h part

private theorem stretches_ordered (source : String) :
    ((parse source).program.highlights.map stretch).Pairwise Stretch.NoLater := by
  refine List.pairwise_map.2 ((highlights_ordered source).1.imp fun {a b} precedes ↦ ?_)
  rcases precedes with line | ⟨line, start, -⟩
  · exact .inl line
  · exact .inr ⟨line, Nat.le_of_lt start⟩

/-- Stretches whose places do not decrease are read back from the numbers that stand for them, and
none of the distances is cut short. So an editor reads the highlights of a program, in order, off
the numbers that it is sent, whatever the text of the program is. -/
theorem encoded_read_back :
    (∀ ss : List Stretch, ss.Pairwise Stretch.NoLater →
      (Delta.ofNumbers? ((Delta.encode ss).flatMap Delta.numbers)).map Delta.decode = some ss
        ∧ (Delta.encode ss).map (fun d ↦ ((d.lines : Int), (d.units : Int))) = Delta.signed ss)
      ∧ ∀ source : String,
        Highlight.ofNumbers? (parse source).program.encodedHighlights
            = some (parse source).program.highlights
          ∧ (Delta.encode ((parse source).program.highlights.map stretch)).map
              (fun d ↦ ((d.lines : Int), (d.units : Int)))
            = Delta.signed ((parse source).program.highlights.map stretch) := by
  refine ⟨fun ss ordered ↦ ⟨?_, Delta.encode_signed ordered⟩, fun source ↦ ⟨?_, ?_⟩⟩
  · rw [Delta.ofNumbers?_flatMap, Option.map_some,
      Delta.decode_encode (Delta.leadsOn_of_ordered ordered)]
  · rw [Program.encodedHighlights, Highlight.ofNumbers?, Delta.ofNumbers?_flatMap, Option.bind_some,
      Delta.decode_encode (Delta.leadsOn_of_ordered (stretches_ordered source)),
      mapM_ofStretch? (Program.legible_highlights _)]
  · exact Delta.encode_signed (stretches_ordered source)

/-- Two stretches of the second line and one of the fourth are read back. -/
theorem three_stretches_read_back :
    [⟨1, 0, 3, 0, 0⟩, ⟨1, 4, 2, 7, 1⟩, ⟨3, 2, 5, 0, 0⟩].Pairwise Stretch.NoLater
      ∧ (Delta.ofNumbers?
          ((Delta.encode [⟨1, 0, 3, 0, 0⟩, ⟨1, 4, 2, 7, 1⟩, ⟨3, 2, 5, 0, 0⟩]).flatMap
            Delta.numbers)).map Delta.decode
        = some [⟨1, 0, 3, 0, 0⟩, ⟨1, 4, 2, 7, 1⟩, ⟨3, 2, 5, 0, 0⟩] := by
  have ordered : [⟨1, 0, 3, 0, 0⟩, ⟨1, 4, 2, 7, 1⟩, ⟨3, 2, 5, 0, 0⟩].Pairwise Stretch.NoLater := by
    simp [Stretch.NoLater]
  exact ⟨ordered, (encoded_read_back.1 _ ordered).1⟩

end ProseLang
