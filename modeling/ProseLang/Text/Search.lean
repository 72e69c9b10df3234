/-!
# Searching text

Main statement: a word occurs in a text exactly if it is an infix of it (`occursIn_iff`).
-/

namespace ProseLang

/-- Whether a word occurs in a text. -/
def occursIn (word : List Char) : List Char → Bool
  | [] => word.isEmpty
  | c :: text => word.isPrefixOf (c :: text) || occursIn word text

/-- A word occurs in a text exactly if the text is the word with something around it. -/
theorem occursIn_iff (word text : List Char) : occursIn word text = true ↔ word <:+: text := by
  induction text with
  | nil => simp [occursIn]
  | cons c text ih => simp [occursIn, ih, List.infix_cons_iff]

end ProseLang
