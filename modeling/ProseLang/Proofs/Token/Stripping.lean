import Mathlib.Data.List.Chain
import ProseLang.Canonical.Stripping
import ProseLang.Proofs.Grammar.LineEndings
import ProseLang.Proofs.Token.Following

/-!
# Lexemes without comments

Where comments are left out of a text, whole lexemes go: comments, blanks before them, and what ends
the line of a comment on its own (`keptLexemes`). What is left of the text is the text of the
lexemes that stay (`stripLexemes_kept`), and it falls apart into these again (`bare_lexemes_kept`):
behind each of them it goes on as the text did, or the line ends where blanks or a comment stood
(`continues_kept`).
-/

namespace ProseLang

/-! ## Lexemes in a row -/

/-- Whether characters are those that a token may start with: if not alone, a dash is half an
arrow. -/
def startsToken : List Char → Bool
  | [] => false
  | '-' :: rest => rest = ['>']
  | c :: _ => !isBlank c && c ≠ '#' && c ≠ '.'

/-- What a lexeme starts and ends with. -/
def Lexeme.HasBounds (taken : List Char) : Lexeme → Prop
  | blank => ∀ c ∈ taken, isBlank c = true
  | lineBreak => taken = ['\n'] ∨ taken = ['\r', '\n']
  | comment => taken.head? = some '#'
  | faulty _ => True
  | number | word _ | symbol _ | quoted .. | discretion .. =>
    startsToken taken = true ∧ taken.getLast?.any isWhite = false

/-- A token or a line break does not start with a point, nor with a dash by itself. -/
theorem Lexeme.HasBounds.starts {x : Lexeme} {c : Char} {more : List Char}
    (h : x.HasBounds (c :: more))
    (sound : ∀ fault, x ≠ .faulty fault) (comment : x ≠ .comment) (blank : x ≠ .blank) :
    c ≠ '.' ∧ (c = '-' → more = ['>']) := by
  have token (h : startsToken (c :: more) = true) : c ≠ '.' ∧ (c = '-' → more = ['>']) := by
    by_cases dash : c = '-'
    · subst dash
      exact ⟨by decide, fun _ ↦ of_decide_eq_true h⟩
    · refine ⟨?_, fun same ↦ absurd same dash⟩
      rintro rfl
      cases h
  cases x with
  | blank => exact absurd rfl blank
  | comment => exact absurd rfl comment
  | faulty fault => exact absurd rfl (sound fault)
  | lineBreak =>
    rcases h with h | h <;> obtain ⟨rfl, -⟩ := List.cons.inj h <;>
      exact ⟨by decide, fun same ↦ absurd same (by decide)⟩
  | _ => exact token h.1

private theorem isWhite_of_isBlank {c : Char} (h : isBlank c = true) : isWhite c = true := by
  simp only [isBlank, Bool.or_eq_true, decide_eq_true_eq] at h
  obtain (rfl | rfl) | rfl := h <;> rfl

/-- From the digit zero on to the tilde there is no white space. -/
theorem isWhite_of_visible {c : Char} (from_ : 0x21 ≤ c.toNat) (upTo : c.toNat ≤ 0x7e) :
    isWhite c = false := by
  simp only [isWhite, List.contains_eq_mem, List.mem_cons, List.not_mem_nil, Bool.or_eq_false_iff,
    Bool.and_eq_false_iff, decide_eq_false_iff_not, or_false]
  omega

private theorem isWhite_of_isNameChar {c : Char} (h : isNameChar c = true) : isWhite c = false := by
  have bounds : 0x30 ≤ c.toNat ∧ c.toNat ≤ 0x7a := by
    delta isNameChar Char.isAlphanum Char.isAlpha Char.isUpper Char.isLower Char.isDigit at h
    simp only [Bool.or_eq_true, Bool.and_eq_true, decide_eq_true_eq, UInt32.le_iff_toNat_le,
      ge_iff_le] at h
    rcases h with ((h | h) | h) | rfl
    · exact ⟨Nat.le_trans (by decide) h.1, Nat.le_trans h.2 (by decide)⟩
    · exact ⟨Nat.le_trans (by decide) h.1, Nat.le_trans h.2 (by decide)⟩
    · exact ⟨Nat.le_trans (by decide) h.1, Nat.le_trans h.2 (by decide)⟩
    · exact ⟨by decide, by decide⟩
  exact isWhite_of_visible (by omega) (by omega)

namespace Parts

/-- What continues a number is no white space. -/
theorem isWhite_of_mem_ofNumber {c : Char} {text : List Char} (h : c ∈ (ofNumber text).taken) :
    isWhite c = false := by
  rcases isDigit_of_mem_ofNumber h with digit | rfl
  · exact isWhite_of_isNameChar (by simp [isNameChar, Char.isAlphanum, digit])
  · rfl

end Parts

namespace Cut

variable {c : Char} {text : List Char}

private theorem hasBounds_of_all {taken : List Char} (starts : startsToken (c :: taken) = true)
    (all : ∀ d ∈ c :: taken, isWhite d = false) :
    startsToken (c :: taken) = true ∧ (c :: taken).getLast?.any isWhite = false := by
  refine ⟨starts, ?_⟩
  rw [List.getLast?_eq_some_getLast (List.cons_ne_nil c taken)]
  exact all _ (List.getLast_mem _)

private theorem startsToken_cons {taken : List Char} (dash : c ≠ '-') (blank : ¬isBlank c = true)
    (sharp : c ≠ '#') (point : c ≠ '.') : startsToken (c :: taken) = true := by
  simp [startsToken, blank, sharp, point]

/-- A literal is bounded by its markers. -/
theorem hasBounds_ofTail {opener marker : List Char} {hne : opener ≠ []} {t : Tail marker text}
    {closed : List Char → Lexeme} {fault : LexFault}
    (token : ∀ body taken, startsToken taken = true → taken.getLast?.any isWhite = false →
      (closed body).HasBounds taken)
    (starts : ∀ rest, startsToken (opener ++ rest) = true)
    (ends : marker.getLast?.any isWhite = false) (marked : marker ≠ []) :
    (ofTail opener hne t closed fault).lexeme.HasBounds
    (ofTail opener hne t closed fault).taken := by
  cases ht : t.closed with
  | true =>
    simp only [ofTail, ht, if_true]
    refine token _ _ (List.append_assoc .. ▸ starts _) ?_
    rwa [List.getLast?_append, Option.or_of_isSome (by simp [marked])]
  | false => simp [ofTail, ht, Lexeme.HasBounds]

private theorem head?_taken (c : Char) (text : List Char) :
    (first c text).taken.head? = some c := by
  have whole := (first c text).taken_append_rest
  cases htaken : (first c text).taken with
  | nil => exact absurd htaken (first c text).taken_ne_nil
  | cons d more =>
    rw [htaken, List.cons_append] at whole
    rw [(List.cons.inj whole).1, List.head?_cons]

/-- The first lexeme of a text starts and ends as such a lexeme does. -/
theorem hasBounds_first (c : Char) (text : List Char) :
    (first c text).lexeme.HasBounds (first c text).taken := by
  by_cases blank : isBlank c = true
  · rw [first_blank blank]
    exact List.forall_mem_cons.2 ⟨blank, fun d hd ↦ List.all_eq_true.1 List.all_takeWhile d hd⟩
  by_cases name : isNameStart c = true
  · rw [first_name blank name]
    have other {d : Char} (h : isNameStart d = false) : c ≠ d := by
      rintro rfl
      rw [name] at h
      cases h
    refine hasBounds_of_all (startsToken_cons (other rfl) blank (other rfl) (other rfl))
      (List.forall_mem_cons.2 ⟨isWhite_of_isNameChar ?_, fun d hd ↦ ?_⟩)
    · simp only [isNameStart, Bool.or_eq_true] at name
      simp only [isNameChar, Char.isAlphanum, Bool.or_eq_true]
      exact name.imp_left .inl
    · rcases Parts.isNameChar_of_mem_ofName hd with char | rfl
      · exact isWhite_of_isNameChar char
      · rfl
  by_cases number : c.isDigit = true
  · rw [first_number blank name number]
    have other {d : Char} (h : d.isDigit = false) : c ≠ d := by
      rintro rfl
      rw [number] at h
      cases h
    exact hasBounds_of_all (startsToken_cons (other rfl) blank (other rfl) (other rfl))
      (List.forall_mem_cons.2 ⟨isWhite_of_isNameChar
        (by simp [isNameChar, Char.isAlphanum, number]),
        fun d hd ↦ Parts.isWhite_of_mem_ofNumber hd⟩)
  generalize hcut : first c text = cut
  simp only [first, if_neg blank, if_neg name, if_neg number] at hcut
  split at hcut <;> subst hcut
  · exact .inl rfl
  · exact .inr rfl
  · rfl
  · exact hasBounds_ofTail (fun _ _ ↦ .intro) (fun _ ↦ rfl) rfl (by decide)
  · exact hasBounds_ofTail (fun _ _ ↦ .intro) (fun _ ↦ rfl) rfl (by decide)
  · exact hasBounds_ofTail (fun _ _ ↦ .intro) (fun _ ↦ rfl) rfl (by decide)
  · exact hasBounds_ofTail (fun _ _ ↦ .intro) (fun _ ↦ rfl) rfl (by decide)
  · exact ⟨rfl, rfl⟩
  · split 
    · next mark hmark =>
      unfold Punctuation.ofChar? at hmark
      split at hmark <;> first | contradiction | exact ⟨rfl, rfl⟩
    · trivial

end Cut

/-- Whether a lexeme may come right after another: a comment goes up to the end of its line, and
blanks up to something else. -/
def LexemeAt.MayFollow (l m : LexemeAt) : Prop :=
  (l.lexeme = .comment → m.lexeme = .lineBreak ∧ m.text = ['\n'])
    ∧ (l.lexeme = .blank → m.lexeme ≠ .blank)

private theorem hasBounds_of_mem_lexemes {p : Position} {text : List Char} {l : LexemeAt}
    (h : l ∈ lexemes p text) : l.lexeme.HasBounds l.text := by
  obtain ⟨c, rest, lexeme, taken⟩ := exists_first_of_mem_lexemes h
  rw [← lexeme, ← taken]
  exact Cut.hasBounds_first c rest

/-- The first lexeme of a text starts with its first character. -/
theorem mem_head?_lexemes {p : Position} {text : List Char} {l : LexemeAt}
    (h : l ∈ (lexemes p text).head?) : ∃ c rest, text = c :: rest ∧ l.text.head? = some c
      ∧ (Cut.first c rest).lexeme = l.lexeme ∧ (Cut.first c rest).taken = l.text := by
  cases text with
  | nil => simp [lexemes] at h
  | cons c rest =>
    rw [lexemes] at h
    obtain rfl := Option.some.inj h
    exact ⟨c, rest, rfl, Cut.head?_taken c rest, rfl, rfl⟩

section Sound

variable {p : Position} {c : Char} {text : List Char}

/-- A text of sound lexemes does not start with a point. -/
theorem head?_ne_point (sound : ∀ l ∈ lexemes p text, ∀ fault, l.lexeme ≠ .faulty fault) :
    text.head? ≠ some '.' := by
  cases text with
  | nil => simp
  | cons c text =>
    rintro ⟨⟩
    rw [lexemes] at sound
    exact sound _ List.mem_cons_self (.unexpectedCharacter '.') rfl

/-- What follows a comment or blanks is something else. -/
theorem isChain_lexemes (sound : ∀ l ∈ lexemes p text, ∀ fault, l.lexeme ≠ .faulty fault) :
    (lexemes p text).IsChain LexemeAt.MayFollow := by
  fun_induction lexemes p text with
  | case1 => exact .nil
  | case2 p c text cut ih =>
    obtain ⟨here, later⟩ := List.forall_mem_cons.1 sound
    have ends : cut.lexeme.EndsBefore cut.taken cut.rest :=
      Cut.endsBefore_first here (head?_ne_point later)
    refine List.isChain_cons.2 ⟨fun m hm ↦ ?_, ih later⟩
    obtain ⟨d, rest, hrest, starts, lexeme, taken⟩ := mem_head?_lexemes hm
    rw [hrest] at ends
    constructor
    · intro comment
      change cut.lexeme = _ at comment
      rw [comment] at ends
      obtain rfl : d = '\n' := by simpa [Lexeme.EndsBefore] using ends
      exact ⟨lexeme.symm, taken.symm⟩
    · intro blank same
      change cut.lexeme = _ at blank
      rw [blank] at ends
      have bounds := hasBounds_of_mem_lexemes (List.mem_of_mem_head? hm)
      rw [same] at bounds
      exact absurd (bounds d (List.mem_of_mem_head? starts)) (Bool.not_eq_true _ ▸ ends)

end Sound

/-! ## The lexemes that stay -/

/-- Where a reader stands that leaves out comments. -/
inductive StripPoint
  /-- At the start of a line, blanks aside. -/
  | lineStart
  /-- After a token of the line. -/
  | inLine
  /-- After a comment on a line of its own. -/
  | ownLine
deriving DecidableEq

/-- Whether the first of some lexemes is a comment. -/
def startsWithComment (ls : List LexemeAt) : Bool := ls.head?.any (·.lexeme = .comment)

namespace StripPoint

/-- Where the reader stands after a lexeme. -/
def after : StripPoint → Lexeme → StripPoint
  | ownLine, _ | _, .lineBreak => lineStart
  | lineStart, .comment => ownLine
  | st, .comment | st, .blank => st
  | _, _ => inLine

/-- Whether a lexeme before others stays. What ends the line of a comment on its own goes with
it. -/
def keeps : StripPoint → Lexeme → List LexemeAt → Bool
  | ownLine, _, _ | _, .comment, _ => false
  | _, .blank, ls => !startsWithComment ls
  | _, _, _ => true

/-- Line breaks and tokens stay. -/
theorem keeps_of_code {st : StripPoint} {x : Lexeme} (own : st ≠ ownLine) (comment : x ≠ .comment)
    (blank : x ≠ .blank) (ls : List LexemeAt) : st.keeps x ls = true := by
  cases st <;> cases x <;> first
    | rfl
    | exact absurd rfl own
    | exact absurd rfl comment
    | exact absurd rfl blank

end StripPoint

/-- The lexemes that stay where comments are left out. -/
def keptLexemes (st : StripPoint) : List LexemeAt → List LexemeAt
  | [] => []
  | l :: ls =>
    if st.keeps l.lexeme ls then l :: keptLexemes (st.after l.lexeme) ls
    else keptLexemes (st.after l.lexeme) ls

/-- No comment stays. -/
theorem lexeme_ne_comment_of_mem_kept {st : StripPoint} {ls : List LexemeAt} :
    ∀ l ∈ keptLexemes st ls, l.lexeme ≠ .comment := by
  induction ls generalizing st with
  | nil => simp [keptLexemes]
  | cons l ls ih =>
    rw [keptLexemes]
    split
    · next stays =>
      refine List.forall_mem_cons.2 ⟨fun comment ↦ ?_, ih⟩
      rw [comment] at stays
      cases st <;> cases stays
    · exact ih

/-- The characters of some lexemes. -/
def textOf (ls : List LexemeAt) : List Char := ls.flatMap LexemeAt.text

/-! ### Their text -/

/-- What the characters before a point end with: `kept` holds them backwards. -/
def StripPoint.Anchors (kept : List Char) : StripPoint → Prop
  | lineStart | ownLine => kept.head?.all (· = '\n') = true
  | inLine => kept.head?.any (!isWhite ·) = true

/-- Whether lexemes may come at a point: the line of a comment on its own ends. -/
def StripPoint.Admits (ls : List LexemeAt) (st : StripPoint) : Prop :=
  st = ownLine → ∀ l ∈ ls.head?, l.lexeme = .lineBreak

/-- Whether lexemes are such as a text without lexical errors has them. -/
structure Lexed (ls : List LexemeAt) : Prop where
  text_ne_nil : ∀ l ∈ ls, l.text ≠ []
  sound : ∀ l ∈ ls, ∀ fault, l.lexeme ≠ .faulty fault
  bounds : ∀ l ∈ ls, l.lexeme.HasBounds l.text
  chain : ls.IsChain LexemeAt.MayFollow

/-- Behind the first lexeme, the others are those of a text, too. -/
theorem Lexed.tail {l : LexemeAt} {ls : List LexemeAt} (h : Lexed (l :: ls)) : Lexed ls :=
  ⟨fun m hm ↦ h.text_ne_nil m (List.mem_cons_of_mem l hm),
    fun m hm ↦ h.sound m (List.mem_cons_of_mem l hm),
    fun m hm ↦ h.bounds m (List.mem_cons_of_mem l hm), h.chain.tail⟩

/-- Behind the first lexeme, the others may follow it. -/
theorem Lexed.admits {l : LexemeAt} {ls : List LexemeAt} (h : Lexed (l :: ls)) (st : StripPoint) :
    (st.after l.lexeme).Admits ls := by
  intro own m hm
  refine (((List.isChain_cons.1 h.chain).1 m hm).1 ?_).1
  generalize l.lexeme = x at own
  cases st <;> cases x <;> first | rfl | cases own

/-- What stays in any case leaves an anchor. -/
theorem StripPoint.anchors_after {st : StripPoint} {l : LexemeAt} (kept : List Char)
    (sound : ∀ fault, l.lexeme ≠ .faulty fault) (bounds : l.lexeme.HasBounds l.text)
    (inLine : st ≠ .ownLine) (code : l.lexeme ≠ .comment) (visible : l.lexeme ≠ .blank) :
    (st.after l.lexeme).Anchors (l.text.reverse ++ kept) := by
  have token (ends : startsToken l.text = true ∧ l.text.getLast?.any isWhite = false) :
      StripPoint.inLine.Anchors (l.text.reverse ++ kept) := by
    obtain ⟨starts, ends⟩ := ends
    cases hlast : l.text.getLast? with
    | none =>
      rw [List.getLast?_eq_none_iff.1 hlast] at starts
      cases starts
    | some c =>
      rw [hlast] at ends
      simpa [Anchors, List.head?_append, hlast] using ends
  cases hl : l.lexeme with
  | blank => exact absurd hl visible
  | comment => exact absurd hl code
  | faulty fault => exact absurd hl (sound fault)
  | lineBreak =>
    rw [hl] at bounds
    have start : st.after .lineBreak = lineStart := by
      cases st <;> rfl
    rw [start]
    obtain h | h := bounds <;> rw [h] <;> rfl
  | _ =>
    rw [hl] at bounds
    cases st with
    | ownLine => exact absurd rfl inLine
    | lineStart | inLine => exact token bounds

section Steps

variable {kept blanks : List Char} {l : LexemeAt} {ls : List LexemeAt}

/-- A lexeme that is no comment stays. -/
theorem stripLexemes_of_code (code : l.lexeme ≠ .comment) :
    stripLexemes kept false (l :: ls) = stripLexemes (l.text.reverse ++ kept) false ls := by
  rw [stripLexemes, if_neg Bool.false_ne_true, if_neg code]

private theorem stripLexemes_of_lineEnd (lineEnd : l.lexeme = .lineBreak)
    (bounds : l.lexeme.HasBounds l.text) :
    stripLexemes kept true (l :: ls) = stripLexemes kept false ls := by
  have drop : l.text.dropWhile (· ≠ '\n') = ['\n'] := by
    rw [lineEnd] at bounds
    obtain h | h := bounds <;> rw [h] <;> rfl
  rw [stripLexemes, if_pos rfl, drop]
  rfl

/-- Blanks do not end a line. -/
theorem ne_newline_of_isBlank (hblanks : ∀ c ∈ blanks, isBlank c = true) :
    ∀ c ∈ blanks.reverse, (decide (c ≠ '\n')) = true := by
  intro c hc
  have blank := hblanks c (List.mem_reverse.1 hc)
  refine decide_eq_true fun feed ↦ ?_
  rw [feed] at blank
  cases blank

/-- A line with nothing but a comment goes, with what ends it. -/
theorem stripLexemes_of_ownLine (comment : l.lexeme = .comment)
    (hblanks : ∀ c ∈ blanks, isBlank c = true)
    (anchor : kept.head?.all (· = '\n') = true) :
    stripLexemes (blanks.reverse ++ kept) false (l :: ls) = stripLexemes kept true ls := by
  have stops : kept.head?.any (· ≠ '\n') = false := by
    cases hk : kept.head? <;> simp_all
  obtain ⟨line, before⟩ := span_append_of_stops (ne_newline_of_isBlank hblanks) stops
  have white : blanks.reverse.all isWhite = true :=
    List.all_eq_true.2 fun c hc ↦ isWhite_of_isBlank (hblanks c (List.mem_reverse.1 hc))
  rw [stripLexemes, if_neg Bool.false_ne_true, if_pos comment, line, before, if_pos white]

/-- A comment behind a token goes with the blanks before it. -/
theorem stripLexemes_of_trailing (comment : l.lexeme = .comment)
    (hblanks : ∀ c ∈ blanks, isBlank c = true)
    (anchor : kept.head?.any (!isWhite ·) = true) :
    stripLexemes (blanks.reverse ++ kept) false (l :: ls) = stripLexemes kept false ls := by
  obtain ⟨c, before, rfl, hc⟩ : ∃ c before, kept = c :: before ∧ isWhite c = false := by
    cases kept with
    | nil => cases anchor
    | cons c before => exact ⟨c, before, rfl, by simpa using anchor⟩
  have feed : c ≠ '\n' := by
    rintro rfl
    cases hc
  have code : ¬((blanks.reverse ++ c :: before).takeWhile (· ≠ '\n')).all isWhite = true := by
    rw [List.takeWhile_append_of_pos (ne_newline_of_isBlank hblanks)]
    simp [feed, hc]
  have white : (blanks.reverse ++ c :: before).dropWhile isWhite = c :: before := by
    refine (span_append_of_stops (fun d hd ↦ ?_) ?_).2
    · exact isWhite_of_isBlank (hblanks d (List.mem_reverse.1 hd))
    · exact hc
  rw [stripLexemes, if_neg Bool.false_ne_true, if_pos comment, if_neg code, white]

end Steps

/-- What is kept of a text is the text of the lexemes that stay, from every point on. The blanks
read last stay if no comment comes next. -/
theorem stripLexemes_kept {st : StripPoint} {kept blanks : List Char} {ls : List LexemeAt}
    (lexed : Lexed ls) (admits : st.Admits ls) (anchors : st.Anchors kept)
    (hblanks : ∀ c ∈ blanks, isBlank c = true)
    (single : blanks ≠ [] → st ≠ .ownLine ∧ ∀ l ∈ ls.head?, l.lexeme ≠ .blank) :
    stripLexemes (blanks.reverse ++ kept) (st = .ownLine) ls
      = ((if startsWithComment ls then [] else blanks) ++ textOf (keptLexemes st ls)).reverse
        ++ kept := by
  induction ls generalizing st kept blanks with
  | nil => simp [stripLexemes, keptLexemes, startsWithComment, textOf]
  | cons l ls ih =>
    have sound := lexed.sound l List.mem_cons_self
    have bounds := lexed.bounds l List.mem_cons_self
    have next (kept' : List Char) (anchors' : (st.after l.lexeme).Anchors kept') :
        stripLexemes kept' (st.after l.lexeme = .ownLine) ls
          = (textOf (keptLexemes (st.after l.lexeme) ls)).reverse ++ kept' := by
      simpa using @ih (st.after l.lexeme) kept' [] lexed.tail (lexed.admits st) anchors' (by simp)
        (by simp)
    by_cases own : st = .ownLine
    · -- The line break goes with the line.
      subst own
      obtain rfl : blanks = [] := by
        by_contra hne
        exact (single hne).1 rfl
      have lineEnd := admits rfl l rfl
      have first : startsWithComment (l :: ls) = false := by simp [startsWithComment, lineEnd]
      rw [first]
      exact (stripLexemes_of_lineEnd lineEnd bounds).trans (next kept anchors)
    by_cases comment : l.lexeme = .comment
    · have first : startsWithComment (l :: ls) = true := by simp [startsWithComment, comment]
      have goes : ¬st.keeps l.lexeme ls = true := by
        rw [comment]
        cases st <;> exact Bool.false_ne_true
      rw [decide_eq_false own, first, keptLexemes, if_neg goes]
      rw [comment] at next ⊢
      cases st with
      | ownLine => exact absurd rfl own
      | lineStart =>
        exact (stripLexemes_of_ownLine comment hblanks anchors).trans (next kept anchors)
      | inLine => exact (stripLexemes_of_trailing comment hblanks anchors).trans (next kept anchors)
    have codeFirst : startsWithComment (l :: ls) = false := by simp [startsWithComment, comment]
    rw [decide_eq_false own, stripLexemes_of_code comment, codeFirst, keptLexemes]
    by_cases blank : l.lexeme = .blank
    · -- Whether the blanks stay shows when what comes next is read.
      obtain rfl : blanks = [] := by
        by_contra hne
        exact (single hne).2 l rfl blank
      have stays : st.after .blank = st := by
        cases st <;> first | rfl | exact absurd rfl own
      have whole := @ih st kept l.text lexed.tail (stays ▸ blank ▸ lexed.admits st) anchors
        (by rw [blank] at bounds; exact bounds) 
        fun _ ↦ ⟨own, fun m hm ↦ ((List.isChain_cons.1 lexed.chain).1 m hm).2 blank⟩
      have keeps : st.keeps .blank ls = !startsWithComment ls := by
        cases st <;> first | rfl | exact absurd rfl own
      rw [decide_eq_false own] at whole
      rw [List.reverse_nil, List.nil_append, whole, blank, keeps, stays]
      cases startsWithComment ls <;> simp [textOf]
    · have stays := StripPoint.keeps_of_code own comment blank ls
      have inLine : st.after l.lexeme ≠ .ownLine := by
        generalize l.lexeme = x at comment
        cases st <;> cases x <;> first | exact absurd rfl comment | nofun
      have rest := next _
        (StripPoint.anchors_after (blanks.reverse ++ kept) sound bounds own comment blank)
      rw [decide_eq_false inLine] at rest
      rw [rest, if_pos stays]
      simp [textOf]


/-- A text without lexical errors has the lexemes of one. -/
theorem lexed_lexemes {p : Position} {text : List Char}
    (sound : ∀ l ∈ lexemes p text, ∀ fault, l.lexeme ≠ .faulty fault) : Lexed (lexemes p text) :=
  ⟨fun _ ↦ text_ne_nil_of_mem_lexemes, sound, fun _ ↦ hasBounds_of_mem_lexemes,
    isChain_lexemes sound⟩

/-! ### Their lexemes -/

section Again

variable {l : LexemeAt} {ls : List LexemeAt} {p : Position} {c : Char} {text : List Char}

private theorem kept_of_stays {st : StripPoint} (stays : st.keeps l.lexeme ls = true) :
    textOf (keptLexemes st (l :: ls)) = l.text ++ textOf (keptLexemes (st.after l.lexeme) ls) := by
  rw [keptLexemes, if_pos stays]
  rfl

/-- Where a comment stood behind a token, the line ends. -/
theorem kept_of_comment (lexed : Lexed ls) (comment : startsWithComment ls = true) :
    textOf (keptLexemes .inLine ls) = []
      ∨ ∃ rest, textOf (keptLexemes .inLine ls) = '\n' :: rest := by
  cases ls with
  | nil => cases comment
  | cons l ls =>
    have hl : l.lexeme = .comment := by simpa [startsWithComment] using comment
    have goes : keptLexemes .inLine (l :: ls) = keptLexemes .inLine ls := by
      rw [keptLexemes, hl]
      rfl
    rw [goes]
    cases ls with
    | nil => exact .inl rfl
    | cons m ls =>
      obtain ⟨lineEnd, feed⟩ := ((List.isChain_cons.1 lexed.chain).1 m rfl).1 hl
      rw [kept_of_stays (by rw [lineEnd]; rfl), feed]
      exact .inr ⟨_, rfl⟩

/-- Behind a token, what stays starts as the text does, or ends the line where blanks or a comment
stood. -/
theorem continues_kept (lexed : Lexed ls) :
    Continues (textOf ls) (textOf (keptLexemes .inLine ls)) := by
  cases ls with
  | nil => exact .nothing
  | cons l ls =>
    have bounds := lexed.bounds l List.mem_cons_self
    obtain ⟨c, more, text⟩ := List.exists_cons_of_ne_nil (lexed.text_ne_nil l List.mem_cons_self)
    have whole : textOf (l :: ls) = c :: (more ++ textOf ls) := by
      rw [textOf, List.flatMap_cons, text]
      rfl
    rw [whole]
    rw [text] at bounds
    by_cases comment : l.lexeme = .comment
    · have sharp : c = '#' := by
        rw [comment] at bounds
        exact Option.some.inj bounds
      rcases kept_of_comment lexed (by simp [startsWithComment, comment]) with h | ⟨rest, h⟩
        <;> rw [h]
      · exact .ends (.inr sharp)
      · exact .breaks (.inr sharp)
    by_cases blank : l.lexeme = .blank
    · have gap : isBlank c = true := by
        rw [blank] at bounds
        exact bounds c List.mem_cons_self
      cases next : startsWithComment ls with
      | true =>
        have goes : keptLexemes .inLine (l :: ls) = keptLexemes .inLine ls := by
          rw [keptLexemes, blank]
          simp [StripPoint.keeps, next, StripPoint.after]
        rw [goes]
        rcases kept_of_comment lexed.tail next with h | ⟨rest, h⟩ <;> rw [h]
        · exact .ends (.inl gap)
        · exact .breaks (.inl gap)
      | false =>
        rw [kept_of_stays (by simp [blank, StripPoint.keeps, next]), text]
        exact .alike (by rintro rfl; cases gap) (by rintro rfl; cases gap)
    · obtain ⟨point, arrow⟩ := bounds.starts (lexed.sound l List.mem_cons_self) comment blank
      have stays : StripPoint.inLine.keeps l.lexeme ls = true :=
        StripPoint.keeps_of_code (by decide) comment blank ls
      rw [kept_of_stays stays, text]
      by_cases dash : c = '-'
      · rw [dash, arrow dash]
        exact .arrow
      · exact .alike dash point

/-- Where a token comes next, it does not matter whether the line has begun. -/
theorem keptLexemes_lineStart (h : ∀ l ∈ ls.head?, l.lexeme ≠ .comment ∧ l.lexeme ≠ .blank) :
    keptLexemes .lineStart ls = keptLexemes .inLine ls := by
  cases ls with
  | nil => rfl
  | cons l ls =>
    obtain ⟨comment, blank⟩ := h l rfl
    rw [keptLexemes, keptLexemes]
    generalize l.lexeme = x at comment blank
    cases x <;> first | rfl | exact absurd rfl comment | exact absurd rfl blank

/-- A lexeme that stays ends before what stays behind it. -/
theorem endsBefore_kept {st : StripPoint} (lexed : Lexed (l :: ls))
    (ends : l.lexeme.EndsBefore l.text (textOf ls)) (stays : st.keeps l.lexeme ls = true) :
    l.lexeme.EndsBefore l.text (textOf (keptLexemes (st.after l.lexeme) ls)) := by
  have next (m : LexemeAt) (hm : m ∈ ls.head?) : l.lexeme = .blank → m.lexeme ≠ .blank :=
    ((List.isChain_cons.1 lexed.chain).1 m hm).2
  generalize l.lexeme = x at stays ends next ⊢
  by_cases comment : x = .comment
  · rw [comment] at stays
    cases st <;> cases stays
  suffices x = .lineBreak ∨ keptLexemes (st.after x) ls = keptLexemes .inLine ls by
    rcases this with rfl | same
    · trivial
    · rw [same]
      exact (continues_kept lexed.tail).endsBefore comment ends
  by_cases blank : x = .blank
  · subst blank
    have code (m : LexemeAt) (hm : m ∈ ls.head?) : m.lexeme ≠ .comment ∧ m.lexeme ≠ .blank := by
      refine ⟨fun comment ↦ ?_, next m hm rfl⟩
      have : startsWithComment ls = true :=
        by simp [startsWithComment, Option.mem_def.1 hm, comment]
      cases st <;> simp [StripPoint.keeps, this] at stays
    cases st with
    | ownLine => cases stays
    | inLine => exact .inr rfl
    | lineStart => exact .inr (keptLexemes_lineStart code)
  · cases st with
    | ownLine => cases stays
    | inLine | lineStart => cases x <;> first
      | exact .inl rfl
      | exact .inr rfl
      | exact absurd rfl comment
      | exact absurd rfl blank

/-- The text of the lexemes that stay falls apart into these. -/
theorem bare_lexemes_kept {st : StripPoint} {p q : Position} {text : List Char}
    (lexed : Lexed (lexemes p text)) :
    recast .bare (lexemes q (textOf (keptLexemes st (lexemes p text))))
      = recast .bare (keptLexemes st (lexemes p text)) := by
  fun_induction lexemes p text generalizing st q with
  | case1 => rw [keptLexemes, textOf, List.flatMap_nil, lexemes]
  | case2 p c text cut =>
    rename_i ih
    have ends : cut.lexeme.EndsBefore cut.taken cut.rest :=
      Cut.endsBefore_first (lexed.sound _ List.mem_cons_self) (head?_ne_point lexed.tail.sound)
    rw [← text_lexemes (p.after cut.taken) cut.rest] at ends
    rw [keptLexemes]
    split
    · next stays =>
      have heads := Cut.heads_first (endsBefore_kept lexed ends stays)
      rw [recast_cons, ← ih lexed.tail, textOf, List.flatMap_cons]
      exact congrArg (recast .bare) (lexemes_of_heads heads q)
    · exact ih lexed.tail

end Again

end ProseLang
