import ProseLang.Text.Position

/-!
# The lines of a text

`textLines` cuts a text at its line breaks, and `lineColumnAt` says in which line and at which
character of it a byte offset falls. Both count in characters, where `positionAt` counts columns
in UTF-16 units.
-/

namespace ProseLang

/-- The lines of a text without their breaks. A break is a line feed with or without a carriage
return before it, and a break at the very end starts no further line. -/
def textLines : List Char → List (List Char)
  | [] => []
  | '\n' :: text => [] :: textLines text
  | '\r' :: '\n' :: text => [] :: textLines text
  | c :: text =>
    match textLines text with
    | [] => [[c]]
    | line :: lines => (c :: line) :: lines

/-- A line and a column, both counted from one, the column in characters (`LineColumn`). -/
structure LineColumn where
  line : Nat
  column : Nat
deriving DecidableEq, Repr

namespace LineColumn

/-- The line and column after one more character (`offset_to_line_col`). -/
def advance (p : LineColumn) (c : Char) : LineColumn :=
  if c = '\n' then ⟨p.line + 1, 1⟩ else ⟨p.line, p.column + 1⟩

/-- The line and column after a text. -/
def after (text : List Char) : LineColumn := text.foldl advance ⟨1, 1⟩

end LineColumn

private def charsBefore (offset : Nat) : List Char → Option (List Char)
  | [] => some []
  | c :: text =>
    if offset = 0 then some []
    else if offset < c.utf8Size then none
    else (charsBefore (offset - c.utf8Size) text).map (c :: ·)

/-- The line and column of a byte offset (`offset_to_line_col`). An offset past the end, and also
one inside a character, stands for the end of the text. -/
def lineColumnAt (text : List Char) (offset : Nat) : LineColumn :=
  .after ((charsBefore offset text).getD text)

private theorem charsBefore_utf8Length (before rest : List Char) :
    charsBefore (utf8Length before) (before ++ rest) = some before := by
  induction before with
  | nil => cases rest <;> simp [charsBefore]
  | cons c before ih =>
    have hc := Char.utf8Size_pos c
    rw [List.cons_append, charsBefore, utf8Length_cons]
    rw [if_neg (by omega), if_neg (by omega)]
    simp [ih]

private theorem eq_of_charsBefore {offset : Nat} {text before : List Char}
    (h : charsBefore offset text = some before) :
    before = text ∨ ∃ rest, before ++ rest = text ∧ utf8Length before = offset := by
  fun_induction charsBefore offset text generalizing before with
  | case1 => exact .inl (Option.some.inj h).symm
  | case2 c text =>
    obtain rfl := Option.some.inj h
    exact .inr ⟨_, rfl, rfl⟩
  | case3 => cases h
  | case4 offset c text nonzero outside ih =>
    obtain ⟨inner, found, rfl⟩ := Option.map_eq_some_iff.1 h
    rcases ih found with rfl | ⟨rest, rfl, length⟩
    · exact .inl rfl
    · refine .inr ⟨rest, rfl, ?_⟩
      rw [utf8Length_cons, length]
      omega

/-- At a character boundary the text before it decides. -/
theorem lineColumnAt_boundary (before rest : List Char) :
    lineColumnAt (before ++ rest) (utf8Length before) = .after before := by
  simp [lineColumnAt, charsBefore_utf8Length]

/-- Anywhere else the whole text decides. -/
theorem lineColumnAt_elsewhere {text : List Char} {offset : Nat}
    (h : ∀ before rest, before ++ rest = text → utf8Length before ≠ offset) :
    lineColumnAt text offset = .after text := by
  rw [lineColumnAt]
  cases found : charsBefore offset text with
  | none => rfl
  | some before =>
    rcases eq_of_charsBefore found with rfl | ⟨rest, whole, length⟩
    · rfl
    · exact absurd length (h before rest whole)

end ProseLang
