/-!
# Positions and spans

A position names a point of a text three times over: by byte offset, by line and by column.
Positions are computed by walking the text, one character at a time, with `Position.advance`;
`Position.after` walks a whole stretch of characters. A span is a pair of positions.

Offsets, lines and columns are natural numbers, while lines and columns are recorded in words of 32
bits: `Position.inWords` is what such words hold of a position. In a text of fewer than `2 ^ 32 - 1`
bytes that is the position itself (`Position.inWords_after`). After `2 ^ 32 - 1` line feeds it is
not: the end of that text is on line `2 ^ 32`, which a word holds as zero, and where the arithmetic
of words is checked for overflow there is no position at all.

Here and in what builds on it, a name in parentheses, such as `Position::at_offset`, is that of the
function or type that a definition follows.
-/

namespace ProseLang

/-- The number of bytes that the UTF-8 encoding of `text` takes. -/
def utf8Length (text : List Char) : Nat := text.foldr (fun c n ↦ c.utf8Size + n) 0

/-- The number of 16-bit units that the UTF-16 encoding of `c` takes. -/
def utf16Units (c : Char) : Nat := if c.val < 0x10000 then 1 else 2

/-- The number of 16-bit units that the UTF-16 encoding of `text` takes (`utf16_len`). -/
def utf16Length (text : List Char) : Nat := text.foldr (fun c n ↦ utf16Units c + n) 0

/-- No text takes no bytes. -/
@[simp] theorem utf8Length_nil : utf8Length [] = 0 := rfl

/-- A text takes the bytes of its first character and of the rest. -/
@[simp] theorem utf8Length_cons (c : Char) (text : List Char) :
    utf8Length (c :: text) = c.utf8Size + utf8Length text := by
  simp [utf8Length]

/-- Texts one after the other add up in bytes. -/
@[simp] theorem utf8Length_append (a b : List Char) :
    utf8Length (a ++ b) = utf8Length a + utf8Length b := by
  induction a with
  | nil => simp
  | cons c a ih => simp [ih, Nat.add_assoc]

/-- No text takes no UTF-16 units. -/
@[simp] theorem utf16Length_nil : utf16Length [] = 0 := rfl

/-- A text takes the UTF-16 units of its first character and of the rest. -/
@[simp] theorem utf16Length_cons (c : Char) (text : List Char) :
    utf16Length (c :: text) = utf16Units c + utf16Length text := by
  simp [utf16Length]

/-- Texts one after the other add up in UTF-16 units. -/
@[simp] theorem utf16Length_append (a b : List Char) :
    utf16Length (a ++ b) = utf16Length a + utf16Length b := by
  induction a with
  | nil => simp
  | cons c a ih => simp [ih, Nat.add_assoc]

/-- A character takes at least as many bytes as 16-bit units. -/
theorem utf16Units_le_utf8Size (c : Char) : utf16Units c ≤ c.utf8Size := by
  unfold utf16Units Char.utf8Size
  simp only [UInt32.lt_iff_toNat_lt, UInt32.le_iff_toNat_le, UInt32.toNat_ofNatLT,
    UInt32.reduceToNat]
  repeat' split
  all_goals omega

/-- A text takes at least as many bytes as 16-bit units. -/
theorem utf16Length_le_utf8Length (text : List Char) : utf16Length text ≤ utf8Length text := by
  induction text with
  | nil => simp
  | cons c text ih =>
    have := utf16Units_le_utf8Size c
    simp only [utf16Length_cons, utf8Length_cons]
    omega

/-- The least number that takes more than 32 bits. -/
def wordLimit : Nat := 4294967296

/-- A point of a source text: its byte offset, its line counted from one, and its column counted
from zero in UTF-16 units (`Position`). -/
structure Position where
  offset : Nat
  line : Nat
  column : Nat
deriving DecidableEq, Repr, Inhabited

namespace Position

/-- The start of every text. -/
def start : Position := ⟨0, 1, 0⟩

/-- A position of which only the byte offset is known (`Position::at_offset`). -/
def ofOffset (offset : Nat) : Position := ⟨offset, 0, 0⟩

/-- The position after one more character: a line feed starts the next line. -/
def advance (p : Position) (c : Char) : Position :=
  if c = '\n' then ⟨p.offset + c.utf8Size, p.line + 1, 0⟩
  else ⟨p.offset + c.utf8Size, p.line, p.column + utf16Units c⟩

/-- The position after a stretch of characters. -/
def after (p : Position) (text : List Char) : Position := text.foldl advance p

/-- The same point by its byte offset alone. -/
def offsetOnly (p : Position) : Position := ofOffset p.offset

/-- The position as it is recorded, with a line and a column of 32 bits: one that is too long starts
over at zero. -/
def inWords (p : Position) : Position := ⟨p.offset, p.line % wordLimit, p.column % wordLimit⟩

/-- The offset moves on by the bytes of a character. -/
@[simp] theorem offset_advance (p : Position) (c : Char) :
    (p.advance c).offset = p.offset + c.utf8Size := by
  unfold advance
  split <;> rfl

/-- No text moves no position. -/
@[simp] theorem after_nil (p : Position) : p.after [] = p := rfl

/-- A text moves a position on character by character. -/
@[simp] theorem after_cons (p : Position) (c : Char) (text : List Char) :
    p.after (c :: text) = (p.advance c).after text := rfl

/-- Walking two stretches one after the other is walking them at once. -/
@[simp] theorem after_append (p : Position) (a b : List Char) :
    p.after (a ++ b) = (p.after a).after b := by
  simp [after]

/-- The offset grows by the bytes walked. -/
@[simp] theorem offset_after (p : Position) (text : List Char) :
    (p.after text).offset = p.offset + utf8Length text := by
  induction text generalizing p with
  | nil => simp
  | cons c text ih => simp [ih, Nat.add_assoc]

/-- The line grows by the line feeds walked. -/
theorem line_after (p : Position) (text : List Char) :
    (p.after text).line = p.line + text.count '\n' := by
  induction text generalizing p with
  | nil => simp
  | cons c text ih =>
    rw [after_cons, ih]
    by_cases h : c = '\n'
    · subst h
      simp only [advance, if_true, List.count_cons_self]
      omega
    · simp [advance, h]

/-- The line grows by no more than the bytes walked. -/
theorem line_after_le (p : Position) (text : List Char) :
    (p.after text).line ≤ p.line + utf8Length text := by
  induction text generalizing p with
  | nil => simp
  | cons c text ih =>
    have h : (p.advance c).line ≤ p.line + c.utf8Size := by
      have := Char.utf8Size_pos c
      unfold advance
      split
      · show p.line + 1 ≤ p.line + c.utf8Size
        omega
      · exact Nat.le_add_right ..
    have := ih (p.advance c)
    simp only [after_cons, utf8Length_cons]
    omega

/-- The column grows by no more than the bytes walked. -/
theorem column_after_le (p : Position) (text : List Char) :
    (p.after text).column ≤ p.column + utf8Length text := by
  induction text generalizing p with
  | nil => simp
  | cons c text ih =>
    have h : (p.advance c).column ≤ p.column + c.utf8Size := by
      have := utf16Units_le_utf8Size c
      unfold advance
      split
      · exact Nat.zero_le _
      · exact Nat.add_le_add_left this p.column
    have := ih (p.advance c)
    simp only [after_cons, utf8Length_cons]
    omega

/-- Nothing is lost of a line and a column that fit. -/
theorem inWords_of_lt {p : Position} (line : p.line < wordLimit) (column : p.column < wordLimit) :
    p.inWords = p := by
  rw [inWords, Nat.mod_eq_of_lt line, Nat.mod_eq_of_lt column]

/-- Nothing is lost of the positions in a text of fewer than `2 ^ 32 - 1` bytes. -/
theorem inWords_after {text : List Char} (short : utf8Length text < wordLimit - 1) :
    (start.after text).inWords = start.after text := by
  have line : (start.after text).line ≤ 1 + utf8Length text := line_after_le start text
  have column : (start.after text).column ≤ 0 + utf8Length text := column_after_le start text
  exact inWords_of_lt (by omega) (by omega)

end Position

/-- A stretch of a source text from `start` up to but not including `stop` (`Span`). -/
structure Span where
  start : Position
  stop : Position
deriving DecidableEq, Repr, Inhabited

namespace Span

/-- The span of what was made up rather than read from a text (`Span::dummy`). -/
def nowhere : Span := ⟨⟨0, 0, 0⟩, ⟨0, 0, 0⟩⟩

/-- A span of which only the byte offsets are known (`Span::from_offsets`). -/
def ofOffsets (start stop : Nat) : Span := ⟨.ofOffset start, .ofOffset stop⟩

/-- The empty span at `p` (`Span::point`). -/
def point (p : Position) : Span := ⟨p, p⟩

/-- The same span by its byte offsets alone. -/
def offsetsOnly (s : Span) : Span := ⟨s.start.offsetOnly, s.stop.offsetOnly⟩

/-- The span as it is recorded. -/
def inWords (s : Span) : Span := ⟨s.start.inWords, s.stop.inWords⟩

/-- Whether the span is that of something made up (`Span::is_dummy`). -/
def isNowhere (s : Span) : Bool := s = nowhere

/-- The number of bytes covered; a reversed span covers none (`Span::len`). -/
def length (s : Span) : Nat := s.stop.offset - s.start.offset

/-- Whether no byte is covered (`Span::is_empty`). -/
def isEmpty (s : Span) : Bool := s.length = 0

/-- Whether the two ends stand on different lines (`Span::is_multiline`). -/
def isMultiline (s : Span) : Bool := s.start.line ≠ s.stop.line

/-- Whether the byte at `p` is covered (`Span::contains`). -/
def contains (s : Span) (p : Position) : Bool :=
  s.start.offset ≤ p.offset && p.offset < s.stop.offset

/-- The earlier of the two starts with the later of the two ends; `s` wins ties (`Span::merge`). -/
def merge (s t : Span) : Span where
  start := if t.start.offset < s.start.offset then t.start else s.start
  stop := if s.stop.offset < t.stop.offset then t.stop else s.stop

end Span

end ProseLang
