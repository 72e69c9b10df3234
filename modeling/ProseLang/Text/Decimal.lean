/-!
# Whole numbers in decimal digits

Main statement: the digits of a number read back as the number (`wholeNumber?_toDigits`).
-/

namespace ProseLang

/-- The number that a text of decimal digits stands for; leading zeros count for nothing. -/
def wholeNumber? (digits : List Char) : Option Nat :=
  if digits ≠ [] && digits.all Char.isDigit then some (Nat.ofDigitChars 10 digits 0) else none

/-- The digits of a number read back as the number. -/
theorem wholeNumber?_toDigits (n : Nat) : wholeNumber? (Nat.toDigits 10 n) = some n := by
  have digits : (Nat.toDigits 10 n).all Char.isDigit = true :=
    List.all_eq_true.2 fun c h ↦ Nat.isDigit_of_mem_toDigits (by decide) (by decide) h
  simp [wholeNumber?, digits, Nat.ofDigitChars_toDigits]

end ProseLang
