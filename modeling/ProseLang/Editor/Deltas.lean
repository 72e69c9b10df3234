import ProseLang.Editor.Highlight

/-!
# Highlights on the wire

An editor is sent five numbers for each highlighted stretch, the place relative to the stretch
before. `Delta.encode` writes them and `Delta.decode` reads them. Main statement: stretches in the
order of the text are read back (`decode_encode`).
-/

namespace ProseLang

/-- A stretch by numbers: its line, start, length, kind and modifiers. -/
structure Stretch where
  line : Nat
  start : Nat
  length : Nat
  kind : Nat
  modifiers : Nat
deriving DecidableEq, Repr

/-- A highlight by numbers. -/
def Highlight.stretch (h : Highlight) : Stretch :=
  ⟨h.line, h.start, h.length, h.kind.index, h.bits⟩

/-- A stretch whose place is relative to the stretch before: lines further down and, on the same
line, units further right (`SemanticTokensBuilder::push`). -/
structure Delta where
  lines : Nat
  units : Nat
  length : Nat
  kind : Nat
  modifiers : Nat
deriving DecidableEq, Repr

namespace Delta

/-- Stretches relative to the one before, the first to the given line and start
(`SemanticTokensBuilder::push`). What would lead backwards counts as no distance. -/
def encodeFrom (line start : Nat) : List Stretch → List Delta
  | [] => []
  | s :: ss =>
    let lines := s.line - line
    ⟨lines, if lines = 0 then s.start - start else s.start, s.length, s.kind, s.modifiers⟩
      :: encodeFrom s.line s.start ss

/-- Stretches relative to the one before, the first to the start of the text (`encode`). -/
def encode (ss : List Stretch) : List Delta := encodeFrom 0 0 ss

/-- The stretches that distances from the given line and start lead to. -/
def decodeFrom (line start : Nat) : List Delta → List Stretch
  | [] => []
  | d :: ds =>
    let start := if d.lines = 0 then start + d.units else d.units
    ⟨line + d.lines, start, d.length, d.kind, d.modifiers⟩ :: decodeFrom (line + d.lines) start ds

/-- The stretches that distances from the start of the text lead to. -/
def decode (ds : List Delta) : List Stretch := decodeFrom 0 0 ds

/-- Whether a list of stretches leads on from the given line and start, step by step. -/
def leadsOn (line start : Nat) : List Stretch → Bool
  | [] => true
  | s :: ss =>
    (line < s.line || (line = s.line && start ≤ s.start)) && leadsOn s.line s.start ss

/-- Stretches that lead on from a place are read back from there. -/
theorem decodeFrom_encodeFrom {line start : Nat} {ss : List Stretch}
    (h : leadsOn line start ss = true) : decodeFrom line start (encodeFrom line start ss) = ss := by
  induction ss generalizing line start with
  | nil => rfl
  | cons s ss ih =>
    simp only [leadsOn, Bool.and_eq_true, Bool.or_eq_true, decide_eq_true_eq] at h
    obtain ⟨further, rest⟩ := h
    have lineBack : line + (s.line - line) = s.line := by omega
    have startBack : (if s.line - line = 0 then
        start + (if s.line - line = 0 then s.start - start else s.start)
        else (if s.line - line = 0 then s.start - start else s.start)) = s.start := by
      split <;> omega
    simp only [encodeFrom, decodeFrom, lineBack, startBack, ih rest]

/-- Stretches in the order of the text are read back. -/
theorem decode_encode {ss : List Stretch} (h : leadsOn 0 0 ss = true) :
    decode (encode ss) = ss :=
  decodeFrom_encodeFrom h

/-- The numbers of a stretch in the order in which they are sent. -/
def numbers (d : Delta) : List Nat := [d.lines, d.units, d.length, d.kind, d.modifiers]

end Delta

/-- What an editor is sent for a program (`get_encoded_semantic_tokens`). -/
def Program.encodedHighlights (p : Program) : List Nat :=
  (Delta.encode (p.highlights.map Highlight.stretch)).flatMap Delta.numbers

/-- The names behind the numbers of kinds and the bits of modifiers. -/
structure Legend where
  kinds : List String
  modifiers : List String
deriving DecidableEq, Repr

/-- The legend of every program (`get_semantic_tokens_legend`). -/
def Legend.standard : Legend where
  kinds := HighlightKind.all.map HighlightKind.text
  modifiers := HighlightModifier.all.map HighlightModifier.text

/-- What an editor may ask for (`semantic_tokens_capability`). -/
structure HighlightCapability where
  legend : Legend := .standard
  /-- Whether it may ask for a part of a program. -/
  range : Bool := false
  /-- Whether it may ask for all of a program. -/
  full : Bool := true
deriving DecidableEq, Repr

end ProseLang
