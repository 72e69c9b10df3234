import ProseLang.Canonical.Printing
import ProseLang.Proofs.Token.Following
import ProseLang.Proofs.Token.Quotes

/-!
# Names as texts of their own

A program is printed with a name bare exactly where the text of the name is read back as that name
and nothing else (`isPlainName_iff`): a text that splits at its hyphens into parts of name
characters is what the longest name at the front of it takes in, and a reserved word is only read as
a name where it is not the whole text.
-/

namespace ProseLang

variable {c : Char} {text : List Char}

/-! ## Parts between hyphens -/

private theorem splitAtChar_self (sep : Char) (text : List Char) :
    splitAtChar sep (sep :: text) = [] :: splitAtChar sep text := by
  rw [splitAtChar, if_pos rfl]

/-- A character that does not separate goes to the front of the first part. -/
theorem splitAtChar_cons_of_ne {sep : Char} (hc : c ≠ sep) {part : List Char}
    {parts : List (List Char)} (h : splitAtChar sep text = part :: parts) :
    splitAtChar sep (c :: text) = (c :: part) :: parts := by
  rw [splitAtChar, if_neg hc, h]

private theorem exists_splitAtChar (sep : Char) (text : List Char) :
    ∃ part parts, splitAtChar sep text = part :: parts :=
  List.exists_cons_of_ne_nil (splitAtChar_ne_nil sep text)

/-- Whether a part can stand after a hyphen of a name. -/
def isNamePart (part : List Char) : Bool := !part.isEmpty && part.all isNameChar

/-- Whether parts go on with a name when hyphens are put between them: the first of them may be
empty, since it is what stands before the first hyphen. -/
def goesOnWithName : List (List Char) → Bool
  | [] => false
  | part :: parts => part.all isNameChar && parts.all isNamePart

/-- A character that starts a name may stand in one. -/
theorem isNameChar_of_isNameStart (h : isNameStart c = true) : isNameChar c = true := by
  simp only [isNameStart, isNameChar, Char.isAlphanum, Bool.or_eq_true] at h ⊢
  exact h.imp_left .inl

/-- A character that starts a name is no blank. -/
theorem not_isBlank_of_isNameStart (h : isNameStart c = true) : ¬isBlank c = true := by
  simp only [isBlank, Bool.or_eq_true, decide_eq_true_eq]
  rintro ((rfl | rfl) | rfl) <;> exact absurd h (by decide)

private theorem goesOnWithName_splitAtChar_of_char (hc : isNameChar c = true) :
    goesOnWithName (splitAtChar '-' (c :: text)) = goesOnWithName (splitAtChar '-' text) := by
  have notDash : c ≠ '-' := by
    rintro rfl
    cases hc
  obtain ⟨part, parts, split⟩ := exists_splitAtChar '-' text
  rw [splitAtChar_cons_of_ne notDash split, split]
  simp [goesOnWithName, hc]

/-- After a hyphen a name goes on with a part that is not empty. -/
theorem goesOnWithName_splitAtChar_of_dash :
    goesOnWithName (splitAtChar '-' ('-' :: text)) = (splitAtChar '-' text).all isNamePart := by
  rw [splitAtChar_self]
  simp [goesOnWithName]

private theorem goesOnWithName_splitAtChar_of_other (hc : isNameChar c = false)
    (notDash : c ≠ '-') : goesOnWithName (splitAtChar '-' (c :: text)) = false := by
  obtain ⟨part, parts, split⟩ := exists_splitAtChar '-' text
  rw [splitAtChar_cons_of_ne notDash split]
  simp [goesOnWithName, hc]

/-- Parts with a name character in front of them are parts of a name exactly if they go on with
one. -/
theorem all_isNamePart_splitAtChar_of_char (hc : isNameChar c = true) :
    (splitAtChar '-' (c :: text)).all isNamePart = goesOnWithName (splitAtChar '-' text) := by
  have notDash : c ≠ '-' := by
    rintro rfl
    cases hc
  obtain ⟨part, parts, split⟩ := exists_splitAtChar '-' text
  rw [splitAtChar_cons_of_ne notDash split, split]
  simp [goesOnWithName, isNamePart, hc]

/-- No part of a name starts where no name character comes next. -/
theorem all_isNamePart_splitAtChar_of_other (h : text.head?.any isNameChar = false) :
    (splitAtChar '-' text).all isNamePart = false := by
  cases text with
  | nil => rfl
  | cons c text =>
    have hc : isNameChar c = false := h
    obtain ⟨part, parts, split⟩ := exists_splitAtChar '-' text
    by_cases dash : c = '-'
    · rw [dash, splitAtChar_self]
      rfl
    · rw [splitAtChar_cons_of_ne dash split]
      simp [isNamePart, hc]

/-- A name takes in the whole text exactly if the parts between the hyphens go on with one. -/
theorem goesOnWithName_iff (text : List Char) :
    goesOnWithName (splitAtChar '-' text) = true ↔ (Parts.ofName text).rest = [] := by
  fun_induction Parts.ofName text with
  | case1 => exact iff_of_true rfl rfl
  | case2 c hc =>
    rw [goesOnWithName_splitAtChar_of_char hc]
    exact iff_of_true rfl rfl
  | case3 c hc =>
    refine iff_of_false ?_ (List.cons_ne_nil c [])
    by_cases dash : c = '-'
    · rw [dash]
      decide
    · rw [goesOnWithName_splitAtChar_of_other (by simpa using hc) dash]
      exact Bool.false_ne_true
  | case4 c d text hc ih =>
    rw [goesOnWithName_splitAtChar_of_char hc]
    exact ih
  | case5 c d text hc hd ih =>
    obtain ⟨dash, hd⟩ := Bool.and_eq_true_iff.1 hd
    rw [of_decide_eq_true dash, goesOnWithName_splitAtChar_of_dash,
      all_isNamePart_splitAtChar_of_char hd]
    exact ih
  | case6 c d text hc hd =>
    refine iff_of_false ?_ (List.cons_ne_nil c (d :: text))
    by_cases dash : c = '-'
    · have other : isNameChar d = false := by simpa [dash] using hd
      have none : (splitAtChar '-' (d :: text)).all isNamePart = false :=
        all_isNamePart_splitAtChar_of_other other
      rw [dash, goesOnWithName_splitAtChar_of_dash, none]
      exact Bool.false_ne_true
    · rw [goesOnWithName_splitAtChar_of_other (by simpa using hc) dash]
      exact Bool.false_ne_true

/-- A plain name is a text that is one name from its start to its end and is not reserved. -/
theorem isPlainName_iff_ofName (name : String) :
    isPlainName name = true ↔ ∃ c text, name.toList = c :: text ∧ isNameStart c = true
      ∧ (Parts.ofName text).rest = [] ∧ Keyword.ofText? name = none := by
  have reserved : isKeyword name = false ↔ Keyword.ofText? name = none :=
    Option.isSome_eq_false_iff.trans
    Option.isNone_iff_eq_none
  have parts : (splitAtChar '-' name.toList).all (fun part ↦ !part.isEmpty && part.all isNameChar)
      = (splitAtChar '-' name.toList).all isNamePart := rfl
  rw [isPlainName, parts, Bool.and_eq_true, Bool.and_eq_true, Bool.not_eq_true', reserved]
  cases name.toList with
  | nil => exact iff_of_false (fun h ↦ Bool.false_ne_true h.1.1) (fun ⟨_, _, h, _⟩ ↦ nomatch h)
  | cons c text =>
    have whole (start : isNameStart c = true) :
        (splitAtChar '-' (c :: text)).all isNamePart = true ↔ (Parts.ofName text).rest = [] := by
      rw [all_isNamePart_splitAtChar_of_char (isNameChar_of_isNameStart start), goesOnWithName_iff]
    constructor
    · rintro ⟨⟨start, all⟩, free⟩
      exact ⟨c, text, rfl, start, (whole start).1 all, free⟩
    · rintro ⟨c, text, same, start, rest, free⟩
      cases same
      exact ⟨⟨start, (whole start).2 rest⟩, free⟩

/-! ## Texts that are one name -/

/-- A text whose first lexeme is all of it and is not reserved is one name. -/
theorem lexemes_of_name (start : isNameStart c = true) (rest : (Parts.ofName text).rest = [])
    (free : Keyword.ofText? (String.ofList (c :: text)) = none) :
    lexemes .start (c :: text)
      = [⟨.word none, c :: text, ⟨.start, Position.start.after (c :: text)⟩⟩] := by
  have first := Cut.first_name (not_isBlank_of_isNameStart start) start text
  have taken : (Parts.ofName text).taken = text := by
    have whole := (Parts.ofName text).taken_append_rest
    rwa [rest, List.append_nil] at whole
  have lexeme : (Cut.first c text).lexeme = .word none := by
    rw [first, rest, taken, free, ite_self]
    rfl
  rw [lexemes_of_rest (by rw [first]; exact rest), lexeme]

/-- Where some lexeme is all of a text, the first one leaves nothing. -/
theorem rest_eq_nil_of_mem_lexemes {p : Position} {l : LexemeAt} (h : l ∈ lexemes p (c :: text))
    (whole : l.text = c :: text) :
    (Cut.first c text).lexeme = l.lexeme ∧ (Cut.first c text).rest = [] := by
  have made := (Cut.first c text).taken_append_rest
  have some := List.length_pos_iff.2 (Cut.first c text).taken_ne_nil
  have total := congrArg List.length made
  rw [List.length_append] at total
  rw [lexemes] at h
  rcases List.mem_cons.1 h with rfl | later
  · have taken : (Cut.first c text).taken.length = (c :: text).length := congrArg List.length whole
    exact ⟨rfl, List.eq_nil_of_length_eq_zero (by omega)⟩
  · -- a later lexeme is too short, since the first one takes a character
    obtain ⟨before, after, split⟩ := List.append_of_mem later
    have within := congrArg List.length (text_lexemes (p.after (Cut.first c text).taken)
      (Cut.first c text).rest)
    rw [split, List.flatMap_append, List.flatMap_cons, whole] at within
    simp only [List.length_append] at within
    omega

/-- A text is a plain name exactly if it is tokenized as that name, at the end of a line, with
nothing wrong. -/
theorem isPlainName_iff (name : String) :
    isPlainName name = true ↔
      (tokenize name).tokens.map Token.kind = [.identifier name, .newline, .endOfFile]
        ∧ (tokenize name).errors = [] := by
  rw [isPlainName_iff_ofName]
  constructor
  · rintro ⟨c, text, same, start, rest, free⟩
    rw [← String.ofList_toList (s := name), same] at free ⊢
    rw [tokenize, String.toList_ofList, tokenizeChars, lexemes_of_name start rest free]
    exact ⟨rfl, rfl⟩
  · rintro ⟨kinds, -⟩
    have member : TokenKind.identifier name ∈ (tokenize name).tokens.map Token.kind := by
      rw [kinds]
      exact List.mem_cons_self
    obtain ⟨t, ht, kind⟩ := List.mem_map.1 member
    have shown : t ∈ visible (tokenize name).tokens := List.mem_filter.2 ⟨ht, by rw [kind]; rfl⟩
    rw [tokenize, visible_tokenizeChars] at shown
    obtain ⟨l, hl, token⟩ := List.mem_filterMap.1 shown
    unfold LexemeAt.token? at token
    split at token <;> cases token <;> cases kind
    next word =>
    -- the name is the text of one of the lexemes, and so the text of the only one
    rw [String.toList_ofList] at hl ⊢
    cases whole : l.text with
    | nil => exact absurd whole (text_ne_nil_of_mem_lexemes hl)
    | cons c text =>
      rw [whole] at hl
      obtain ⟨lexeme, rest⟩ := rest_eq_nil_of_mem_lexemes hl whole
      rw [word] at lexeme
      have start := Cut.isNameStart_of_first lexeme
      rw [Cut.first_name (not_isBlank_of_isNameStart start) start] at lexeme rest
      have taken := (Parts.ofName text).taken_append_rest
      change (Parts.ofName text).rest = [] at rest
      rw [rest, List.append_nil] at taken
      refine ⟨c, text, rfl, start, rest, ?_⟩
      simpa [Cut.ofParts, rest, taken] using lexeme

end ProseLang
