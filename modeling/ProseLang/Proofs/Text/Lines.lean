import Mathlib.Data.List.DropRight
import ProseLang.Proofs.Token.Places
import ProseLang.Text.LineIndex
import ProseLang.Text.Lines

/-!
# Lines and columns of a position

Two counts of lines and columns are made of a text: `positionAt` counts columns in UTF-16 units from
zero, `lineColumnAt` in characters from one. They start over at the same places, so both columns
measure the last line of the text before an offset (`Position.after_start`, `LineColumn.after_eq`).
-/

namespace ProseLang

/-- The part of a text after its last line feed. -/
def lastLine (text : List Char) : List Char := text.rtakeWhile (· ≠ '\n')

variable {text line : List Char}

/-- The last line of no text is empty. -/
theorem lastLine_nil : lastLine [] = [] := List.rtakeWhile_nil _

/-- Behind a line feed the last line is empty. -/
theorem lastLine_lineFeed (text : List Char) : lastLine (text ++ ['\n']) = [] :=
  List.rtakeWhile_concat_neg _ _ _ (by simp)

/-- Text without a line feed goes on with the last line. -/
theorem lastLine_append (text : List Char) (h : '\n' ∉ line) :
    lastLine (text ++ line) = lastLine text ++ line := by
  induction line using List.reverseRecOn with
  | nil => simp
  | append_singleton line c ih =>
    have apart : '\n' ∉ line ∧ c ≠ '\n' := by simpa [eq_comm] using h
    rw [← List.append_assoc, lastLine, List.rtakeWhile_concat_pos _ _ _ (by simpa using apart.2),
      ← lastLine, ih apart.1, List.append_assoc]

/-- Walking a text from its start comes to the line after its line feeds and, in UTF-16 units, to
the end of its last line. -/
theorem Position.after_start (text : List Char) :
    Position.start.after text
      = ⟨utf8Length text, 1 + text.count '\n', utf16Length (lastLine text)⟩ := by
  induction text using List.reverseRecOn with
  | nil => rfl
  | append_singleton text c ih =>
    rw [Position.after_append, ih, Position.after_cons, Position.after_nil, Position.advance]
    split
    · next feed =>
      subst feed
      rw [lastLine_lineFeed]
      simp [Nat.add_assoc]
    · next other =>
      rw [lastLine_append text (by simpa [eq_comm] using other)]
      simp [other]

/-- Counting in characters comes to the same line, one past the characters of its last line. -/
theorem LineColumn.after_eq (text : List Char) :
    LineColumn.after text = ⟨1 + text.count '\n', (lastLine text).length + 1⟩ := by
  induction text using List.reverseRecOn with
  | nil => rfl
  | append_singleton text c ih =>
    rw [LineColumn.after, List.foldl_append, ← LineColumn.after, ih, List.foldl_cons,
      List.foldl_nil, LineColumn.advance]
    split
    · next feed =>
      subst feed
      rw [lastLine_lineFeed]
      simp [Nat.add_assoc]
    · next other =>
      rw [lastLine_append text (by simpa [eq_comm] using other)]
      simp [other]

/-- A character may take four bytes and two UTF-16 units. -/
example : positionAt ['𝄞', 'x'] 4 = ⟨4, 1, 2⟩ ∧ lineColumnAt ['𝄞', 'x'] 4 = ⟨1, 2⟩ := by decide

end ProseLang
