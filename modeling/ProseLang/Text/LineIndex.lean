import ProseLang.Text.Slice

/-!
# Lines of a text

`lineStarts` lists the byte offset at which each line begins. A byte offset is turned into a
position in two ways: `indexedAt` looks the offset up among the starts and records the position in
words, `positionAt` walks the text up to the offset. Main statement: `positionAt_boundary`, which
says that at a character boundary the position is the one reached by walking there.
-/

namespace ProseLang

private def lineStartsFrom (offset : Nat) : List Char → List Nat
  | [] => []
  | c :: text =>
    let next := offset + c.utf8Size
    if c = '\n' then next :: lineStartsFrom next text else lineStartsFrom next text

/-- The byte offset of the first character of each line; the first line starts at zero
(`LineIndex::new`). -/
def lineStarts (text : List Char) : List Nat := 0 :: lineStartsFrom 0 text

/-- The number of lines, one more than the number of line feeds (`LineIndex::line_count`). -/
def lineCount (text : List Char) : Nat := (lineStarts text).length

/-- The byte offset at which the given line starts; lines are counted from one
(`LineIndex::line_start`). -/
def lineStart? (text : List Char) : (line : Nat) → Option Nat
  | 0 => none
  | n + 1 => (lineStarts text)[n]?

/-- The number of lines that start at a byte offset or before it. -/
def linesUpTo (text : List Char) (offset : Nat) : Nat :=
  ((lineStarts text).takeWhile (· ≤ offset)).length

/-- The position of a byte offset as it is looked up: the last line that starts at the offset or
before it, and the UTF-16 length of the text from there, if that can be cut out
(`LineIndex::position`). Both are brought into words of 32 bits, and the line is counted from one
there. -/
def indexedAt (text : List Char) (offset : Nat) : Position :=
  let offset := min offset (utf8Length text)
  let index := linesUpTo text offset - 1
  let start := ((lineStarts text)[index]?).getD 0
  let column := ((sliceBytes? start offset text).map utf16Length).getD 0
  ⟨offset, (UInt32.ofNat index + 1).toNat, (UInt32.ofNat column).toNat⟩

private def walkTo (target : Nat) (p : Position) : List Char → Position
  | [] => p
  | c :: text =>
    if target ≤ p.offset then p
    else if target < p.offset + c.utf8Size then ⟨target, p.line, 0⟩
    else walkTo target (p.advance c) text

/-- The position of a byte offset (`LineIndex::position`). An offset past the end stands for the
end, and one inside a character has its line but column zero. -/
def positionAt (text : List Char) (offset : Nat) : Position := walkTo offset .start text

/-- The span between two byte offsets (`LineIndex::span`). -/
def spanAt (text : List Char) (start stop : Nat) : Span :=
  ⟨positionAt text start, positionAt text stop⟩

/-- Fills in the lines and columns of a span of which only the offsets are known
(`LineIndex::locate`). -/
def locate (text : List Char) (s : Span) : Span := spanAt text s.start.offset s.stop.offset

private theorem walkTo_append {target : Nat} {p : Position} {before : List Char}
    (h : p.offset + utf8Length before ≤ target) (rest : List Char) :
    walkTo target p (before ++ rest) = walkTo target (p.after before) rest := by
  induction before generalizing p with
  | nil => rfl
  | cons c before ih =>
    have hc := Char.utf8Size_pos c
    rw [utf8Length_cons] at h
    rw [List.cons_append, walkTo, if_neg (by omega), if_neg (by omega), Position.after_cons]
    exact ih (by rw [Position.offset_advance]; omega)

/-- At a character boundary the position is the one reached by walking there from the start. -/
theorem positionAt_boundary (before rest : List Char) :
    positionAt (before ++ rest) (utf8Length before) = Position.start.after before := by
  rw [positionAt, walkTo_append (by simp [Position.start])]
  cases rest <;> simp [walkTo, Position.start]

/-- An offset past the end stands for the end. -/
theorem positionAt_past {text : List Char} {offset : Nat} (h : utf8Length text ≤ offset) :
    positionAt text offset = Position.start.after text := by
  have walked := walkTo_append (p := .start) (by simpa [Position.start] using h) []
  simpa [positionAt, walkTo] using walked

/-- An offset inside a character has the line of the character and column zero. -/
theorem positionAt_inside (before : List Char) (c : Char) (rest : List Char) {n : Nat} (pos : 0 < n)
    (inside : n < c.utf8Size) :
    positionAt (before ++ c :: rest) (utf8Length before + n)
      = ⟨utf8Length before + n, (Position.start.after before).line, 0⟩ := by
  rw [positionAt, walkTo_append (by simp [Position.start]), walkTo, Position.offset_after]
  simp only [Position.start, Nat.zero_add]
  rw [if_neg (by omega), if_pos (by omega)]

private theorem lineStartsFrom_concat (offset : Nat) (text : List Char) (c : Char) :
    lineStartsFrom offset (text ++ [c])
      = lineStartsFrom offset text
        ++ if c = '\n' then [offset + (utf8Length text + c.utf8Size)] else [] := by
  induction text generalizing offset with
  | nil =>
    simp only [List.nil_append, lineStartsFrom, utf8Length_nil, Nat.zero_add]
  | cons d text ih =>
    simp only [List.cons_append, lineStartsFrom, ih, utf8Length_cons, Nat.add_assoc]
    split <;> simp

/-- A text without characters has one line. -/
theorem lineStarts_nil : lineStarts [] = [0] := rfl

/-- A line feed at the end starts one more line; any other character starts none. -/
theorem lineStarts_concat (text : List Char) (c : Char) :
    lineStarts (text ++ [c])
      = lineStarts text ++ if c = '\n' then [utf8Length (text ++ [c])] else [] := by
  simp [lineStarts, lineStartsFrom_concat]

private theorem length_lineStartsFrom (offset : Nat) (text : List Char) :
    (lineStartsFrom offset text).length = text.count '\n' := by
  induction text generalizing offset with
  | nil => rfl
  | cons c text ih =>
    by_cases h : c = '\n'
    · subst h; simp [lineStartsFrom, ih]
    · simp [lineStartsFrom, ih, h]

/-- There is one line more than there are line feeds. -/
theorem lineCount_eq (text : List Char) : lineCount text = text.count '\n' + 1 := by
  simp [lineCount, lineStarts, length_lineStartsFrom]

end ProseLang
