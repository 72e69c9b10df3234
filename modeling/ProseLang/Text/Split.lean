/-!
# Splitting text

Main statement: the parts of a split, with the separator between them, make up the text
(`intercalate_splitAtChar`).
-/

namespace ProseLang

/-- The parts of a text between the occurrences of a character; there is always at least one. -/
def splitAtChar (sep : Char) : List Char → List (List Char)
  | [] => [[]]
  | c :: text =>
    if c = sep then [] :: splitAtChar sep text
    else match splitAtChar sep text with
      | [] => [[c]]
      | part :: parts => (c :: part) :: parts

/-- A text has at least one piece. -/
theorem splitAtChar_ne_nil (sep : Char) (text : List Char) : splitAtChar sep text ≠ [] := by
  cases text with
  | nil => simp [splitAtChar]
  | cons c text =>
    rw [splitAtChar]
    split
    · simp
    · split <;> simp

/-- The parts with the separator between them make up the text. -/
theorem intercalate_splitAtChar (sep : Char) (text : List Char) :
    List.intercalate [sep] (splitAtChar sep text) = text := by
  induction text with
  | nil => rfl
  | cons c text ih =>
    rw [splitAtChar]
    split
    · next h =>
      subst h
      cases hs : splitAtChar c text with
      | nil => exact absurd hs (splitAtChar_ne_nil c text)
      | cons part parts =>
        rw [hs] at ih
        simp [List.intercalate_cons_cons, ih]
    · cases hs : splitAtChar sep text with
      | nil => exact absurd hs (splitAtChar_ne_nil sep text)
      | cons part parts =>
        rw [hs] at ih
        cases parts <;> simp_all [List.intercalate_cons_cons]

end ProseLang
