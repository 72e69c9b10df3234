import ProseLang.Proofs.Token.Following
import ProseLang.Proofs.Token.Resume

/-!
# Texts without comments

Whether a text has a comment can be told from its parts (`IsCode`). Characters that neither a
comment nor a literal starts with may come before any text without comments (`isCode_plain_append`),
and the literals of a text before one that does not go on with their last marker (`KeepsCode`,
`keepsCode_of_string`, `keepsCode_of_discretion`). No token of a text without comments is one
(`isComment_of_isCode`).
-/

namespace ProseLang

/-- Whether none of the lexemes of a text is a comment. -/
def IsCode (text : List Char) : Prop := ∀ l ∈ lexemes .start text, l.lexeme ≠ .comment

/-- Whether neither a comment nor a string nor a discretion starts with a character. -/
def isPlain (c : Char) : Bool := c ≠ '#' && c ≠ '"' && c ≠ '*'

/-- Whether a text does not go on with the last marker of a literal before it. -/
def ClosesLiterals (rest : List Char) : Prop := rest.head? ≠ some '"' ∧ rest.head? ≠ some '*'

/-- Whether a text may come before every text without comments that closes it. -/
def KeepsCode (text : List Char) : Prop :=
  ∀ rest, ClosesLiterals rest → IsCode rest → IsCode (text ++ rest)

/-! ## Texts in parts -/

/-- The empty text has no comment. -/
theorem isCode_nil : IsCode [] := by simp [IsCode, lexemes]

/-- The place of a text makes no difference. -/
theorem isCode_iff (p : Position) (text : List Char) :
    IsCode text ↔ ∀ l ∈ lexemes p text, l.lexeme ≠ .comment := by
  have kept (q q' : Position) (h : ∀ l ∈ lexemes q text, l.lexeme ≠ .comment) :
      ∀ l ∈ lexemes q' text, l.lexeme ≠ .comment := by
    intro l hl
    have same : recast .bare l ∈ recast .bare (lexemes q' text) := List.mem_map_of_mem hl
    rw [bare_lexemes q' q] at same
    obtain ⟨m, hm, alike⟩ := List.mem_map.1 same
    rw [← (lexeme_of_bare alike).1]
    exact h m hm
  exact ⟨kept _ _, kept _ _⟩

private theorem isCode_cons (c : Char) (text : List Char) :
    IsCode (c :: text) ↔ (Cut.first c text).lexeme ≠ .comment ∧ IsCode (Cut.first c text).rest := by
  rw [IsCode, lexemes, List.forall_mem_cons, ← isCode_iff]

private theorem isCode_of_heads {x : Lexeme} {taken rest : List Char} (h : x.Heads taken rest)
    (code : x ≠ .comment) (others : IsCode rest) : IsCode (taken ++ rest) := by
  rw [IsCode, lexemes_of_heads h, List.forall_mem_cons, ← isCode_iff]
  exact ⟨code, others⟩

/-! ## Plain characters -/

/-- No character of a name starts a comment or a literal. -/
theorem isPlain_of_isNameChar {c : Char} (h : isNameChar c = true) : isPlain c = true := by
  have other {d : Char} (hd : isNameChar d = false) : c ≠ d := by
    rintro rfl
    rw [h] at hd
    cases hd
  simp [isPlain, other (d := '#') rfl, other (d := '"') rfl, other (d := '*') rfl]

/-- No digit starts a comment or a literal. -/
theorem isPlain_of_isDigit {c : Char} (h : c.isDigit = true) : isPlain c = true :=
  isPlain_of_isNameChar (by simp [isNameChar, Char.isAlphanum, h])

private theorem isPlain_of_mem_ofNumber {c : Char} {text : List Char}
    (h : c ∈ (Parts.ofNumber text).taken) : isPlain c = true := by
  rcases Parts.isDigit_of_mem_ofNumber h with digit | rfl
  · exact isPlain_of_isDigit digit
  · rfl

private theorem isPlain_of_mem_ofName {c : Char} {text : List Char}
    (h : c ∈ (Parts.ofName text).taken) : isPlain c = true := by
  rcases Parts.isNameChar_of_mem_ofName h with char | rfl
  · exact isPlain_of_isNameChar char
  · rfl

namespace Cut

variable {c : Char} {text : List Char}

/-- A lexeme that starts with a plain character is no comment and has only such characters. -/
theorem plain_first (h : isPlain c = true) :
    (first c text).lexeme ≠ .comment ∧ ∀ d ∈ (first c text).taken, isPlain d = true := by
  by_cases blank : isBlank c = true
  · rw [first_blank blank]
    refine ⟨by rintro ⟨⟩, List.forall_mem_cons.2 ⟨h, fun d hd ↦ ?_⟩⟩
    have : isBlank d = true := List.all_eq_true.1 List.all_takeWhile d hd
    simp only [isBlank, Bool.or_eq_true, decide_eq_true_eq] at this
    obtain (rfl | rfl) | rfl := this <;> rfl
  by_cases name : isNameStart c = true
  · rw [first_name blank name]
    exact ⟨by rintro ⟨⟩, List.forall_mem_cons.2 ⟨h, fun d hd ↦ isPlain_of_mem_ofName hd⟩⟩
  by_cases number : c.isDigit = true
  · rw [first_number blank name number]
    exact ⟨by rintro ⟨⟩, List.forall_mem_cons.2 ⟨h, fun d hd ↦ isPlain_of_mem_ofNumber hd⟩⟩
  generalize hcut : first c text = cut
  simp only [first, if_neg blank, if_neg name, if_neg number] at hcut
  split at hcut <;> subst hcut
  · exact ⟨by rintro ⟨⟩, List.forall_mem_singleton.2 h⟩
  · exact ⟨by rintro ⟨⟩, List.forall_mem_cons.2 ⟨h, List.forall_mem_singleton.2 rfl⟩⟩
  · cases h
  · cases h
  · cases h
  · cases h
  · cases h
  · exact ⟨by rintro ⟨⟩, List.forall_mem_cons.2 ⟨h, List.forall_mem_singleton.2 rfl⟩⟩
  · split <;> exact ⟨by rintro ⟨⟩, List.forall_mem_singleton.2 h⟩

/-- What a number starts with is a digit. -/
theorem isDigit_of_first (h : (first c text).lexeme = .number) : c.isDigit = true := by
  unfold first at h
  split at h
  · cases h
  split at h
  · cases h
  split at h
  · assumption
  split at h
  · cases h
  · cases h
  · cases h
  · exact absurd h (by simp only [ofTail]; split <;> simp)
  · exact absurd h (by simp only [ofTail]; split <;> simp)
  · exact absurd h (by simp only [ofTail]; split <;> simp)
  · exact absurd h (by simp only [ofTail]; split <;> simp)
  · cases h
  · split at h <;> cases h

/-- Words and numbers are made of plain characters. -/
theorem plain_of_first
    (h : (∃ reserved, (first c text).lexeme = .word reserved) ∨ (first c text).lexeme = .number) :
    ∀ d ∈ (first c text).taken, isPlain d = true := by
  refine (plain_first ?_).2
  rcases h with ⟨reserved, h⟩ | h
  · have start := isNameStart_of_first h
    simp only [isNameStart, Bool.or_eq_true] at start
    exact isPlain_of_isNameChar (by simpa [isNameChar, Char.isAlphanum] using start.imp_left .inl)
  · exact isPlain_of_isDigit (isDigit_of_first h)

end Cut

/-- Whether a text has a comment does not depend on plain characters before it. -/
theorem isCode_plain_append {plain : List Char} (h : ∀ c ∈ plain, isPlain c = true)
    (rest : List Char) : IsCode (plain ++ rest) ↔ IsCode rest := by
  -- A lexeme may take all of the plain characters and some that follow, which then are plain too.
  induction hn : (plain ++ rest).length using Nat.strongRecOn generalizing plain rest with
  | _ n ih =>
    subst hn
    cases plain with
    | nil => exact Iff.rfl
    | cons c plain =>
      have first := @Cut.plain_first c (plain ++ rest) (List.forall_mem_cons.1 h).1
      have whole := (Cut.first c (plain ++ rest)).taken_append_rest
      have shorter := (Cut.first c (plain ++ rest)).rest_length_lt
      rw [List.cons_append] at ih ⊢
      rw [isCode_cons, and_iff_right first.1]
      rcases List.append_eq_append_iff.1 (whole.trans (List.cons_append ..).symm) with
        ⟨more, hplain, left⟩ | ⟨more, htaken, hrest⟩
      · rw [left] at shorter ⊢
        exact ih _ shorter (fun d hd ↦ h d (hplain ▸ List.mem_append_right _ hd)) rest rfl
      · have fewer : (more ++ (Cut.first c (plain ++ rest)).rest).length
            < (c :: (plain ++ rest)).length := by
          rw [← hrest, List.length_cons, List.length_append]
          omega
        have later := ih _ fewer (fun d hd ↦ first.2 d (htaken ▸ List.mem_append_right _ hd)) _ rfl
        rw [← hrest] at later
        exact later.symm

/-! ## Tokens -/

/-- No reserved word has a character that starts a comment or a literal. -/
theorem isPlain_of_keyword (word : Keyword) : ∀ c ∈ word.text.toList, isPlain c = true :=
  List.all_eq_true.1 (by cases word <;> decide)

section

variable {source : String} {span : Span}

/-- A token is the first lexeme of some text. -/
theorem exists_first_of_mem {t : Token} (h : t ∈ visible (tokenize source).tokens) :
    ∃ (l : LexemeAt) (c : Char) (text : List Char),
    l.token? = some t ∧ (Cut.first c text).lexeme = l.lexeme
      ∧ ∀ written ∈ t.kind.text?, (Cut.first c text).taken = written.toList := by
  rw [tokenize, visible_tokenizeChars] at h
  obtain ⟨l, hl, token⟩ := List.mem_filterMap.1 h
  obtain ⟨c, text, lexeme, taken⟩ := exists_first_of_mem_lexemes hl
  have spelled := (LexemeAt.token?_eq_some (isWritten_of_mem_lexemes hl) token).2
  exact ⟨l, c, text, token, lexeme, fun written hw ↦ taken.trans (spelled written hw).symm⟩

/-- No name in a source text has a character that starts a comment or a literal. -/
theorem isPlain_of_identifier {name : String}
    (h : ⟨.identifier name, span⟩ ∈ visible (tokenize source).tokens) :
    ∀ c ∈ name.toList, isPlain c = true := by
  obtain ⟨l, c, text, token, lexeme, taken⟩ := exists_first_of_mem h
  unfold LexemeAt.token? at token
  split at token <;> cases token
  next word =>
  rw [← taken _ rfl]
  exact Cut.plain_of_first (.inl ⟨_, lexeme.trans word⟩)

/-- No number in a source text has a character that starts a comment or a literal. -/
theorem isPlain_of_number {digits : String}
    (h : ⟨.number digits, span⟩ ∈ visible (tokenize source).tokens) :
    ∀ c ∈ digits.toList, isPlain c = true := by
  obtain ⟨l, c, text, token, lexeme, taken⟩ := exists_first_of_mem h
  unfold LexemeAt.token? at token
  split at token <;> cases token
  next number =>
  rw [← taken _ rfl]
  exact Cut.plain_of_first (.inr (lexeme.trans number))

/-- A string of a source text may come before every text without comments that closes it. -/
theorem keepsCode_of_string {literal : StringLiteral}
    (h : ⟨.string literal, span⟩ ∈ visible (tokenize source).tokens) :
    KeepsCode literal.raw.toList := by
  obtain ⟨l, c, text, token, lexeme, taken⟩ := exists_first_of_mem h
  unfold LexemeAt.token? at token
  split at token <;> cases token
  next quoted =>
  rw [← taken _ rfl]
  intro rest closes others
  refine isCode_of_heads (Cut.heads_first ?_) ?_ others <;> rw [lexeme, quoted]
  · exact fun _ _ ↦ closes.1
  · exact nofun

/-- A condition in stars of a source text may come before every text without comments that closes
it. -/
theorem keepsCode_of_discretion {literal : DiscretionLiteral}
    (h : ⟨.discretion literal, span⟩ ∈ visible (tokenize source).tokens) :
    KeepsCode literal.raw.toList := by
  obtain ⟨l, c, text, token, lexeme, taken⟩ := exists_first_of_mem h
  unfold LexemeAt.token? at token
  split at token <;> cases token
  next discretion =>
  rw [← taken _ rfl]
  intro rest closes others
  refine isCode_of_heads (Cut.heads_first ?_) ?_ others <;> rw [lexeme, discretion]
  · exact closes.2
  · exact nofun

/-- The literal that is made for a text without carriage returns is one lexeme. -/
theorem keepsCode_ofText {text : String} (h : '\r' ∉ text.toList) :
    KeepsCode (StringLiteral.ofText text).raw.toList := by
  have first := Cut.first_quote (spelledBody_ne_quote text.toList)
  have all := Cut.ofTail_of_isAll (List.cons_ne_nil '"' []) (Tail.ofQuoted_spelledBody h)
    (.quoted false) .unterminatedString
  rw [← first] at all
  have whole := (Cut.first '"' (StringLiteral.spelledBody text.toList ++ ['"'])).taken_append_rest
  rw [all.2, List.append_nil] at whole
  have raw : (StringLiteral.ofText text).raw.toList
      = '"' :: (StringLiteral.spelledBody text.toList ++ ['"']) := String.toList_ofList
  rw [raw, ← whole]
  intro rest closes others
  refine isCode_of_heads (Cut.heads_first ?_) ?_ others <;> rw [all.1]
  · exact fun _ _ ↦ closes.1
  · exact nofun

/-- A text without comments has no comments among its tokens. -/
theorem isComment_of_isCode (h : IsCode source.toList) :
    ∀ t ∈ (tokenize source).tokens, t.kind.isComment = false := by
  intro t ht
  cases comment : t.kind.isComment with
  | false => rfl
  | true =>
    obtain ⟨kind, span⟩ := t
    cases kind with
    | comment text =>
      have seen : ⟨.comment text, span⟩ ∈ visible (tokenize source).tokens :=
        List.mem_filter.2 ⟨ht, rfl⟩
      rw [tokenize, visible_tokenizeChars] at seen
      obtain ⟨l, hl, token⟩ := List.mem_filterMap.1 seen
      unfold LexemeAt.token? at token
      split at token <;> cases token
      next isComment => exact absurd isComment (h l hl)
    | _ => cases comment

end

end ProseLang
