import ProseLang.Proofs.Token.Holes
import ProseLang.Proofs.Token.Resume

/-!
# Line endings

A text with carriage returns before its line feeds (`withReturns`) falls apart into the same
lexemes, but a comment takes the return before the line feed that ends it (`lexemes_withReturns`).
The layout does not look at what comments say, so the same tokens come out (`tokensOf_withReturns`).
-/

namespace ProseLang

/-- A text with a carriage return before every line feed. -/
def withReturns (text : List Char) : List Char :=
  text.flatMap fun c ↦ if c = '\n' then ['\r', '\n'] else [c]

/-- Whether a text is one with returns, or is so but for the first, which a lexeme before it
took. -/
def LeftOver (text text' : List Char) : Prop :=
  text' = withReturns text ∨ ∃ rest, text = '\n' :: rest ∧ text' = '\n' :: withReturns rest

section Texts

variable {text text' : List Char} {c : Char} {p : Char → Bool}

private theorem withReturns_cons (hc : c ≠ '\n') :
    withReturns (c :: text) = c :: withReturns text := by
  simp [withReturns, hc]

private theorem withReturns_newline : withReturns ('\n' :: text)
    = '\r' :: '\n' :: withReturns text := rfl

private theorem withReturns_of_not_mem (h : '\n' ∉ text) : withReturns text = text := by
  induction text with
  | nil => rfl
  | cons c text ih =>
    rw [List.mem_cons, not_or] at h
    rw [withReturns_cons (Ne.symm h.1), ih h.2]

private theorem exists_of_withReturns_eq_cons (hc : c ≠ '\r') (h : withReturns text = c :: text') :
    ∃ rest, text = c :: rest ∧ text' = withReturns rest := by
  cases text with
  | nil => cases h
  | cons d text =>
    by_cases hd : d = '\n'
    · rw [hd, withReturns_newline] at h
      exact absurd (List.cons.inj h).1.symm hc
    · rw [withReturns_cons hd] at h
      obtain ⟨rfl, rfl⟩ := List.cons.inj h
      exact ⟨text, rfl, rfl⟩

/-- Line ends aside, a text starts as it does with returns. -/
theorem any_head?_withReturns (hfeed : p '\n' = false) (hreturn : p '\r' = false) :
    (withReturns text).head?.any p = text.head?.any p := by
  cases text with
  | nil => rfl
  | cons c text =>
    by_cases hc : c = '\n'
    · rw [hc, withReturns_newline]
      simp [hfeed, hreturn]
    · rw [withReturns_cons hc]
      rfl

private theorem head?_withReturns {d : Char} (feed : d ≠ '\n') (noReturn : d ≠ '\r') :
    (withReturns text).head? = some d ↔ text.head? = some d := by
  have starts (o : Option Char) : o = some d ↔ o.any (· = d) = true := by
    cases o <;> simp
  rw [starts, starts, any_head?_withReturns (by simpa [eq_comm] using feed)
    (by simpa [eq_comm] using noReturn)]

end Texts

/-! ## Parts of lexemes -/

/-- Whether parts of a text are those of the text with returns. -/
structure Parts.Returns {text text' : List Char} (p : Parts text) (p' : Parts text') : Prop where
  taken : p'.taken = p.taken
  rest : p'.rest = withReturns p.rest

namespace Parts

variable {text text' : List Char}

private theorem Returns.cons {p : Parts text} {p' : Parts text'} (h : p.Returns p') (c : Char) :
    (p.cons c).Returns (p'.cons c) := ⟨congrArg (c :: ·) h.taken, h.rest⟩

private theorem ofClass_returns {p : Char → Bool} (hfeed : p '\n' = false)
    (hreturn : p '\r' = false)
    (h : text' = withReturns text) : (ofClass p text).Returns (ofClass p text') := by
  subst h
  suffices both : (withReturns text).takeWhile p = text.takeWhile p
      ∧ (withReturns text).dropWhile p = withReturns (text.dropWhile p) from ⟨both.1, both.2⟩
  induction text with
  | nil => exact ⟨rfl, rfl⟩
  | cons c text ih =>
    by_cases hc : c = '\n'
    · rw [hc, withReturns_newline]
      simp [hfeed, hreturn, withReturns_newline]
    · rw [withReturns_cons hc]
      cases hp : p c with
      | true => simp [hp, ih]
      | false => simp [hp, withReturns_cons hc]

/-- A name goes on with a name character. -/
theorem ofName_cons {c : Char} (hc : isNameChar c = true) (text : List Char) :
    ofName (c :: text) = (ofName text).cons c := by
  cases text <;> simp [ofName, hc]

/-- A name goes on with a hyphen only before a name character. -/
theorem ofName_of_other {c : Char} (hc : isNameChar c = false)
    (hdash : c = '-' → text.head?.any isNameChar = false) :
    ofName (c :: text) = none (c :: text) := by
  cases text with
  | nil => simp [ofName, hc]
  | cons d text =>
    have other : (c = '-' && isNameChar d) = false := by
      by_cases dash : c = '-'
      · simpa [dash] using hdash dash
      · simp [dash]
    simp [ofName, hc, other]

private theorem ofName_returns (h : text' = withReturns text) :
    (ofName text).Returns (ofName text') := by
  have other (c : Char) (rest : List Char) (hc : isNameChar c = false)
      (hdash : c = '-' → rest.head?.any isNameChar = false) (text' : List Char)
      (h : text' = withReturns (c :: rest)) : (ofName (c :: rest)).Returns (ofName text') := by
    rw [ofName_of_other hc hdash]
    by_cases feed : c = '\n'
    · rw [feed, withReturns_newline] at h
      rw [h, ofName_of_other rfl (by simp), feed]
      exact ⟨rfl, rfl⟩
    · rw [withReturns_cons feed] at h
      rw [h, ofName_of_other hc fun dash ↦ by rw [any_head?_withReturns rfl rfl, hdash dash]]
      exact ⟨rfl, (withReturns_cons feed).symm⟩
  have feed {c : Char} (hc : isNameChar c = true) : c ≠ '\n' := by
    rintro rfl
    cases hc
  fun_induction ofName text generalizing text' with
  | case1 => exact h ▸ ⟨rfl, rfl⟩
  | case2 c hc =>
    rw [withReturns_cons (feed hc)] at h
    rw [h, ofName_cons hc]
    exact ⟨rfl, rfl⟩
  | case3 c hc =>
    have whole := other c [] (by simpa using hc) (fun _ ↦ rfl) _ h
    rwa [ofName, if_neg hc] at whole
  | case4 c d text hc ih =>
    rw [withReturns_cons (feed hc)] at h
    rw [h, ofName_cons hc]
    exact (ih rfl).cons c
  | case5 c d text hc hd ih =>
    obtain ⟨dash, char⟩ := Bool.and_eq_true_iff.1 hd
    obtain rfl : c = '-' := of_decide_eq_true dash
    rw [withReturns_cons (by decide), withReturns_cons (feed char)] at h
    rw [h, ofName, if_neg hc, if_pos hd]
    exact ((ih rfl).cons d).cons '-'
  | case6 c d text hc hd =>
    have whole := other c (d :: text) (by simpa using hc) (fun dash ↦ by simpa [dash] using hd) _ h
    rwa [ofName, if_neg hc, if_neg hd] at whole

private theorem ofNumber_returns (h : text' = withReturns text) :
    (ofNumber text).Returns (ofNumber text') := by
  have whole := ofClass_returns (p := Char.isDigit) rfl rfl h
  have rest := whole.rest
  have feed {d : Char} (hd : d.isDigit = true) : d ≠ '\n' := by
    rintro rfl
    cases hd
  by_cases point : ∃ d r, (ofClass Char.isDigit text).rest = '.' :: d :: r ∧ d.isDigit = true
  · obtain ⟨d, r, hr, hd⟩ := point
    have fraction := ofClass_returns (p := Char.isDigit) rfl rfl (rfl : _ = withReturns (d :: r))
    rw [hr, withReturns_cons (by decide), withReturns_cons (feed hd)] at rest
    rw [withReturns_cons (feed hd)] at fraction
    obtain ⟨taken, left⟩ := ofNumber_of_point hr hd
    obtain ⟨taken', left'⟩ := ofNumber_of_point rest hd
    exact ⟨by rw [taken, taken', whole.taken, fraction.taken],
      by rw [left, left', fraction.rest]⟩
  · have none : ∀ d r, (ofClass Char.isDigit text).rest = '.' :: d :: r → d.isDigit = false :=
      fun d r hr ↦ Bool.not_eq_true _ ▸ fun hd ↦ point ⟨d, r, hr, hd⟩
    rw [ofNumber_of_whole none, ofNumber_of_whole]
    · exact whole
    · intro d r hr
      rw [rest] at hr
      obtain ⟨left, hleft, hd⟩ := exists_of_withReturns_eq_cons (by decide) hr
      cases hdigit : d.isDigit with
      | false => rfl
      | true =>
        obtain ⟨left, rfl, -⟩ := exists_of_withReturns_eq_cons (by rintro rfl; cases hdigit) hd.symm
        exact hdigit.symm.trans (none d left hleft)

/-- A comment takes the return before the line feed that ends it. -/
theorem ofComment_returns (plain : '\r' ∉ text) (h : text' = withReturns text) :
    (ofClass (· ≠ '\n') text').taken
        = (ofClass (· ≠ '\n') text).taken ++
        (if (ofClass (· ≠ '\n') text).rest = [] then [] else ['\r'])
      ∧ LeftOver (ofClass (· ≠ '\n') text).rest (ofClass (· ≠ '\n') text').rest := by
  subst h
  simp only [ofClass]
  induction text with
  | nil => exact ⟨rfl, .inl rfl⟩
  | cons c text ih =>
    rw [List.mem_cons, not_or] at plain
    by_cases hc : c = '\n'
    · rw [hc, withReturns_newline]
      exact ⟨rfl, .inr ⟨text, rfl, rfl⟩⟩
    · obtain ⟨taken, rest⟩ := ih plain.2
      rw [withReturns_cons hc]
      simp only [hc, ne_eq, not_false_eq_true, decide_true, List.takeWhile_cons_of_pos,
        List.dropWhile_cons_of_pos] at taken rest ⊢
      exact ⟨by rw [taken]; rfl, rest⟩

end Parts

/-- Whether the rest of a literal is that in the text with returns. -/
structure Tail.Returns {marker text text' : List Char} (t : Tail marker text)
    (t' : Tail marker text') : Prop where
  closed : t'.closed = t.closed
  body : t.closed = true → t'.body = withReturns t.body
  rest : LeftOver t.rest t'.rest

namespace Tail

variable {marker text text' : List Char}

private theorem Returns.cons {t : Tail marker text} {t' : Tail marker text'} (h : t.Returns t')
    {c : Char} (hc : c ≠ '\n') : (t.cons c).Returns (t'.cons c) where
  closed := h.closed
  body closed := by
    change c :: t'.body = withReturns (c :: t.body)
    rw [withReturns_cons hc, h.body closed]
  rest := h.rest

private theorem Returns.newline {t : Tail marker text} {t' : Tail marker text'} (h : t.Returns t') :
    (t.cons '\n').Returns ((t'.cons '\n').cons '\r') where
  closed := h.closed
  body closed := congrArg (['\r', '\n'] ++ ·) (h.body closed)
  rest := h.rest

private theorem ofQuoted_returns {escaped : Bool} (plain : '\r' ∉ text)
    (h : text' = withReturns text) : (ofQuoted escaped text).Returns (ofQuoted escaped text') := by
  fun_induction ofQuoted escaped text generalizing text' with
  | case1 => exact h ▸ ⟨rfl, by simp [stop], .inl rfl⟩
  | case2 escaped c text hc =>
    have ends : c = '\n' ∨ c = '\r' := by simpa using hc
    obtain rfl : c = '\n' := ends.resolve_right fun hr ↦ plain (hr ▸ List.mem_cons_self)
    rw [withReturns_newline] at h
    rw [h, ofQuoted, if_pos (by decide)]
    exact ⟨rfl, by simp [stop], .inl rfl⟩
  | case3 escaped c text hc hq =>
    obtain ⟨rfl, rfl⟩ := hq
    rw [withReturns_cons (by decide)] at h
    rw [h, ofQuoted, if_neg hc, dif_pos ⟨rfl, rfl⟩]
    exact ⟨rfl, fun _ ↦ rfl, .inl rfl⟩
  | case4 escaped c text hc hq ih =>
    rw [List.mem_cons, not_or] at plain
    have feed : c ≠ '\n' := by
      rintro rfl
      exact hc rfl
    rw [withReturns_cons feed] at h
    rw [h, ofQuoted, if_neg hc, dif_neg hq]
    exact (ih plain.2 rfl).cons feed

private theorem ofTripleQuoted_returns (plain : '\r' ∉ text) (h : text' = withReturns text) :
    (ofTripleQuoted text).Returns (ofTripleQuoted text') := by
  fun_induction ofTripleQuoted text generalizing text' with
  | case1 => exact h ▸ ⟨rfl, by simp [stop], .inl rfl⟩
  | case2 c text ih =>
    rw [List.mem_cons, List.mem_cons, not_or, not_or] at plain
    rw [withReturns_cons (by decide)] at h
    by_cases hc : c = '\n'
    · rw [hc, withReturns_newline] at h
      rw [h, hc, ofTripleQuoted, ofTripleQuoted]
      · exact (ih plain.2.2 rfl).newline.cons (by decide)
      all_goals simp
    · rw [withReturns_cons hc] at h
      rw [h, ofTripleQuoted]
      exact ((ih plain.2.2 rfl).cons hc).cons (by decide)
  | case3 text =>
    rw [withReturns_cons (by decide), withReturns_cons (by decide),
      withReturns_cons (by decide)] at h
    rw [h]
    exact ⟨rfl, fun _ ↦ rfl, .inl rfl⟩
  | case4 c text hescape hclose ih =>
    rw [List.mem_cons, not_or] at plain
    by_cases hc : c = '\n'
    · rw [hc, withReturns_newline] at h
      rw [h, hc, ofTripleQuoted, ofTripleQuoted]
      · exact (ih plain.2 rfl).newline
      all_goals simp
    · rw [withReturns_cons hc] at h
      rw [h, ofTripleQuoted]
      · exact (ih plain.2 rfl).cons hc
      · rintro d rest rfl heq
        cases text with
        | nil => cases heq
        | cons e text => exact hescape e text rfl rfl
      · rintro rest rfl heq
        obtain ⟨left, rfl, hleft⟩ := exists_of_withReturns_eq_cons (by decide) heq
        obtain ⟨left, rfl, -⟩ := exists_of_withReturns_eq_cons (by decide) hleft.symm
        exact hclose left rfl rfl

private theorem ofDiscretion_returns {multiline inRun : Bool} (plain : '\r' ∉ text)
    (h : text' = withReturns text) :
    (ofDiscretion multiline inRun text).Returns (ofDiscretion multiline inRun text') := by
  have runs (text : List Char) : starRun ('*' :: withReturns text) = starRun ('*' :: text)
      ∧ ('*' :: withReturns text).dropWhile (· = '*')
        = withReturns (('*' :: text).dropWhile (· = '*')) := by
    have both := Parts.ofClass_returns (p := (· = '*')) rfl rfl
      (rfl : _ = withReturns ('*' :: text))
    rw [withReturns_cons (by decide)] at both
    exact ⟨congrArg List.length both.taken, both.rest⟩
  fun_induction ofDiscretion multiline inRun text generalizing text' with
  | case1 => exact h ▸ ⟨rfl, by simp [stop], .inl rfl⟩
  | case2 inRun text hrun =>
    rw [withReturns_cons (by decide)] at h
    rw [h, ofDiscretion, if_pos rfl, dif_pos (by rw [(runs text).1]; exact hrun)]
    exact ⟨rfl, fun _ ↦ rfl, .inl (runs text).2⟩
  | case3 inRun text hrun ih =>
    rw [List.mem_cons, not_or] at plain
    rw [withReturns_cons (by decide)] at h
    rw [h, ofDiscretion, if_pos rfl, dif_neg (by rw [(runs text).1]; exact hrun)]
    exact (ih plain.2 rfl).cons (by decide)
  | case4 inRun c text hc hstop =>
    obtain ⟨feed, single⟩ := Bool.and_eq_true_iff.1 hstop
    obtain rfl : c = '\n' := of_decide_eq_true feed
    rw [withReturns_newline] at h
    rw [h, ofDiscretion, if_neg (by decide), if_neg (by simp), ofDiscretion, if_neg (by decide),
      if_pos hstop]
    exact ⟨rfl, by simp [stop], .inr ⟨text, rfl, rfl⟩⟩
  | case5 inRun c text hc hstop ih =>
    rw [List.mem_cons, not_or] at plain
    by_cases feed : c = '\n'
    · rw [feed, withReturns_newline] at h
      rw [feed] at hstop
      rw [h, feed, ofDiscretion, if_neg (by decide), if_neg (by simp), ofDiscretion,
        if_neg (by decide), if_neg hstop]
      exact (ih plain.2 rfl).newline
    · rw [withReturns_cons feed] at h
      rw [h, ofDiscretion, if_neg hc, if_neg hstop]
      exact (ih plain.2 rfl).cons feed

end Tail

/-! ## Lexemes -/

/-- A lexeme of a text with returns. -/
def Lexeme.withReturns : Lexeme → Lexeme
  | quoted triple body => .quoted triple (ProseLang.withReturns body)
  | discretion multiline body => .discretion multiline (ProseLang.withReturns body)
  | x => x

/-- What of its text the layout needs of a lexeme. -/
def Lexeme.recorded (taken : List Char) : Lexeme → List Char
  | blank | comment | number | word none => taken
  | _ => []

/-- Whether a lexeme is the first of a text and of the text with returns. -/
structure Cut.Returns {text text' : List Char} (cut : Cut text) (cut' : Cut text') : Prop where
  lexeme : cut'.lexeme = cut.lexeme.withReturns
  recorded : cut'.lexeme.recorded cut'.taken
    = cut.lexeme.recorded cut.taken ++ if cut.lexeme = .comment ∧ cut.rest ≠ [] then ['\r'] else []
  rest : LeftOver cut.rest cut'.rest

namespace Cut

variable {text text' : List Char}

private theorem ofParts_returns {lexeme : Lexeme} {c : Char} {p : Parts text} {p' : Parts text'}
    (h : p.Returns p') (same : lexeme.withReturns = lexeme) (other : lexeme ≠ .comment) :
    (ofParts lexeme c p).Returns (ofParts lexeme c p') where
  lexeme := same.symm
  recorded := by simp [ofParts, h.taken, other]
  rest := .inl h.rest

private theorem ofTail_returns {opener marker : List Char} (hne : opener ≠ [])
    {t : Tail marker text} {t' : Tail marker text'} {closed : List Char → Lexeme}
    {fault : LexFault} (h : t.Returns t')
    (same : ∀ body, closed (withReturns body) = (closed body).withReturns)
    (silent : ∀ body taken, (closed body).recorded taken = [] ∧ closed body ≠ .comment) :
    (ofTail opener hne t closed fault).Returns (ofTail opener hne t' closed fault) := by
  refine ⟨?_, ?_, h.rest⟩
  · simp only [ofTail, h.closed]
    split
    · next hc => rw [h.body hc, same]
    · rfl
  · simp only [ofTail, h.closed]
    split
    · simp [silent, (silent t.body []).2]
    · simp [Lexeme.recorded]

/-- A text in quotes, be it of one line or of several. -/
private theorem first_quote_returns (plain : '\r' ∉ text) :
    (first '"' text).Returns (first '"' (withReturns text)) := by
  by_cases triple : ∃ rest, text = '"' :: '"' :: rest
  · obtain ⟨rest, rfl⟩ := triple
    simp only [List.mem_cons, not_or] at plain
    rw [withReturns_cons (by decide), withReturns_cons (by decide)]
    exact ofTail_returns (by simp) (Tail.ofTripleQuoted_returns plain.2.2 rfl) (fun _ ↦ rfl) fun _ _ ↦
      ⟨rfl, by simp⟩
  · have single : ∀ rest, text ≠ '"' :: '"' :: rest := fun rest heq ↦ triple ⟨rest, heq⟩
    have single' : ∀ rest, withReturns text ≠ '"' :: '"' :: rest := by
      intro rest heq
      obtain ⟨left, rfl, hleft⟩ := exists_of_withReturns_eq_cons (by decide) heq
      obtain ⟨left, rfl, -⟩ := exists_of_withReturns_eq_cons (by decide) hleft.symm
      exact triple ⟨left, rfl⟩
    rw [first_quote single, first_quote single']
    exact ofTail_returns (by simp) (Tail.ofQuoted_returns plain rfl) (fun _ ↦ rfl) fun _ _ ↦
      ⟨rfl, by simp⟩

private theorem first_stars_returns (plain : '\r' ∉ text) :
    (first '*' ('*' :: text)).Returns (first '*' ('*' :: withReturns text)) := by
  by_cases third : ∃ rest, text = '*' :: rest
  · obtain ⟨rest, rfl⟩ := third
    rw [List.mem_cons, not_or] at plain
    rw [withReturns_cons (by decide)]
    exact ofTail_returns (by simp) (Tail.ofDiscretion_returns plain.2 rfl) (fun _ ↦ rfl) fun _ _ ↦
      ⟨rfl, by simp⟩
  · have two : ∀ rest, text ≠ '*' :: rest := fun rest heq ↦ third ⟨rest, heq⟩
    have two' : ∀ rest, withReturns text ≠ '*' :: rest := by
      intro rest heq
      obtain ⟨left, rfl, -⟩ := exists_of_withReturns_eq_cons (by decide) heq
      exact third ⟨left, rfl⟩
    rw [first_stars two, first_stars two']
    exact ofTail_returns (by simp) (Tail.ofDiscretion_returns plain rfl) (fun _ ↦ rfl) fun _ _ ↦
      ⟨rfl, by simp⟩

private theorem first_word_returns {c : Char} (blank : ¬isBlank c = true)
    (name : isNameStart c = true) : (first c text).Returns (first c (withReturns text)) := by
  have returns : (Parts.ofName text).Returns (Parts.ofName (withReturns text)) :=
    Parts.ofName_returns rfl
  have hyphen : (Parts.ofName (withReturns text)).rest.head? = some '-'
      ↔ (Parts.ofName text).rest.head? = some '-' := by
    rw [returns.rest, head?_withReturns (by decide) (by decide)]
  simp only [first, if_neg blank, if_pos name, hyphen, returns.taken]
  exact ofParts_returns returns rfl (by simp)

private theorem first_comment_returns (plain : '\r' ∉ text) :
    (first '#' text).Returns (first '#' (withReturns text)) := by
  have comment (text : List Char) :
      first '#' text = ofParts .comment '#' (.ofClass (· ≠ '\n') text) := rfl
  obtain ⟨taken, rest⟩ := Parts.ofComment_returns plain rfl
  rw [comment, comment]
  refine ⟨rfl, ?_, rest⟩
  change '#' :: _ = ('#' :: _) ++ _
  rw [taken]
  simp [ofParts]

private theorem first_returns {c c' : Char} (plain : '\r' ∉ c :: text)
    (h : c' :: text' = withReturns (c :: text)) : (first c text).Returns (first c' text') := by
  by_cases feed : c = '\n'
  · subst feed
    rw [withReturns_newline] at h
    obtain ⟨rfl, rfl⟩ := List.cons.inj h
    exact ⟨rfl, rfl, .inl rfl⟩
  rw [withReturns_cons feed] at h
  obtain ⟨rfl, rfl⟩ := List.cons.inj h
  rw [List.mem_cons, not_or] at plain
  by_cases blank : isBlank c' = true
  · simp only [first, if_pos blank]
    exact ofParts_returns (Parts.ofClass_returns rfl rfl rfl) rfl (by simp)
  by_cases name : isNameStart c' = true
  · exact first_word_returns blank name
  by_cases number : c'.isDigit = true
  · simp only [first, if_neg blank, if_neg name, if_pos number]
    exact ofParts_returns (Parts.ofNumber_returns rfl) rfl (by simp)
  by_cases comment : c' = '#'
  · subst comment
    exact first_comment_returns plain.2
  by_cases quote : c' = '"'
  · subst quote
    exact first_quote_returns plain.2
  by_cases stars : c' = '*' ∧ text.head? = some '*'
  · obtain ⟨rfl, star⟩ := stars
    obtain ⟨rest, rfl⟩ := List.head?_eq_some_iff.1 star
    simp only [List.mem_cons, not_or] at plain
    rw [withReturns_cons (by decide)]
    exact first_stars_returns plain.2.2
  by_cases arrow : c' = '-' ∧ text.head? = some '>'
  · obtain ⟨rfl, point⟩ := arrow
    obtain ⟨rest, rfl⟩ := List.head?_eq_some_iff.1 point
    rw [withReturns_cons (by decide)]
    exact ⟨rfl, rfl, .inl rfl⟩
  -- a mark by itself, or no token
  have noStars : c' = '*' → text.head? ≠ some '*' := not_and.1 stars
  have noArrow : c' = '-' → text.head? ≠ some '>' := not_and.1 arrow
  rw [first_other blank name number feed comment quote (Ne.symm plain.1) noStars noArrow,
    first_other blank name number feed comment quote (Ne.symm plain.1)]
  · cases Punctuation.ofChar? c' <;> exact ⟨rfl, rfl, .inl rfl⟩
  · rwa [Ne, head?_withReturns (by decide) (by decide)]
  · rwa [Ne, head?_withReturns (by decide) (by decide)]

end Cut

namespace LexemeAt

/-- A lexeme with what the layout needs of its text. -/
def bare (l : LexemeAt) : LexemeAt := { l with text := l.lexeme.recorded l.text }

/-- A lexeme of a text that ends at `stop`, in the text with returns. -/
def withReturns (stop : Position) (l : LexemeAt) : LexemeAt where
  lexeme := l.lexeme.withReturns
  text := l.text ++ if l.lexeme = .comment ∧ l.span.stop ≠ stop then ['\r'] else []
  span := l.span

end LexemeAt

/-- A text with returns falls apart into the same lexemes, but for the ends of comments and what
literals go over several lines. -/
theorem lexemes_withReturns (p q : Position) {text text' : List Char} (plain : '\r' ∉ text)
    (h : LeftOver text text') :
    recast .bare ((lexemes q text').map LexemeAt.bare)
      = recast .bare (((lexemes p text).map (LexemeAt.withReturns (p.after text))).map
        LexemeAt.bare) := by
  fun_induction lexemes p text generalizing q text' with
  | case1 p =>
    obtain rfl : text' = [] := by
      rcases h with h | ⟨rest, h, -⟩
      · exact h
      · cases h
    rw [lexemes]
    rfl
  | case2 p c text cut ih =>
    have whole : p.after (c :: text) = (p.after cut.taken).after cut.rest := by
      rw [← Position.after_append, cut.taken_append_rest]
    have left : '\r' ∉ cut.rest := fun mem ↦
      plain (cut.taken_append_rest ▸ List.mem_append_right _ mem)
    obtain ⟨c', text'', rfl, returns⟩ : ∃ c' text'', text' = c' :: text''
        ∧ cut.Returns (Cut.first c' text'') := by
      rcases h with h | ⟨rest, hfeed, h⟩
      · cases hw : text' with
        | nil =>
          rw [hw] at h
          by_cases feed : c = '\n' <;> simp [ProseLang.withReturns, feed] at h
        | cons c' text'' => exact ⟨c', text'', rfl, Cut.first_returns plain (hw ▸ h)⟩
      · obtain ⟨rfl, rfl⟩ := List.cons.inj hfeed
        exact ⟨_, _, h, rfl, rfl, .inl rfl⟩
    rw [lexemes, List.map_cons, List.map_cons, List.map_cons, recast_cons, recast_cons,
      ih (q.after (Cut.first c' text'').taken) left returns.rest, whole]
    congr 1
    have ends : p.after cut.taken = (p.after cut.taken).after cut.rest ↔ cut.rest = [] := by
      refine ⟨fun same ↦ ?_, fun nil ↦ by rw [nil]; rfl⟩
      have length := congrArg Position.offset same
      rw [Position.offset_after _ cut.rest] at length
      refine Classical.byContradiction fun more ↦ ?_
      have := utf8Length_pos more
      omega
    change LexemeAt.mk _ _ _ = LexemeAt.mk _ _ _
    rw [LexemeAt.mk.injEq]
    refine ⟨returns.lexeme, returns.recorded.trans ?_, rfl⟩
    simp only [LexemeAt.withReturns, LexemeAt.bare, ne_eq, ends]
    cases cut.lexeme with
    | word reserved => cases reserved <;> simp [Lexeme.recorded, Lexeme.withReturns]
    | _ => simp [Lexeme.recorded, Lexeme.withReturns]

/-! ## Layout -/

/-- A comment of a text that ends at `stop`, in the text with returns. -/
def Comment.withReturn (stop : Position) (c : Comment) : Comment :=
  if c.span.stop = stop then c else { c with text := c.text ++ "\r" }

/-- A token of a text that ends at `stop`, in the text with returns. -/
def Token.withReturn (stop : Position) (t : Token) : Token :=
  match t.kind with
  | .comment text => { t with kind := .comment (Comment.withReturn stop ⟨text, t.span⟩).text }
  | _ => t

/-- Only comments take the carriage return of their line. -/
theorem Token.withReturn_of_isComment {t : Token} (stop : Position) (h : t.kind.isComment = false) :
    t.withReturn stop = t := by
  obtain ⟨kind, span⟩ := t
  cases kind <;> first | rfl | cases h

namespace Layout

variable {s t : Layout} {l m : LexemeAt} (stop : Position)

/-- A layout in a text that ends at `stop`, in the text with returns. -/
def withReturns (s : Layout) : Layout := { s with held := s.held.map (Token.withReturn stop) }

/-- The layout sees no more of a lexeme than what it needs. -/
theorem step_bare (s : Layout) (l : LexemeAt) : s.step l.bare = s.step l := by
  obtain ⟨lexeme, text, span⟩ := l
  cases lexeme with
  | word reserved => cases reserved <;> rfl
  | _ => rfl

private theorem map_withReturn_dedents (n : Nat) (p : Position) :
    (dedents n p).map (Token.withReturn stop) = dedents n p := by
  rw [dedents, List.map_replicate]
  rfl

private theorem startLine_withReturns (isPipe : Bool) (p : Position) :
    (s.withReturns stop).startLine isPipe p
      = ((s.startLine isPipe p).1.withReturns stop,
        ⟨(s.startLine isPipe p).2.tokens.map (Token.withReturn stop),
          (s.startLine isPipe p).2.errors⟩) := by
  have ended (o : Option Span) : (o.toList.map fun span ↦ (⟨.newline, span⟩ : Token)).map
      (Token.withReturn stop) = o.toList.map fun span ↦ ⟨.newline, span⟩ := by cases o <;> rfl
  have tab : (s.withReturns stop).leadTab? = s.leadTab? := rfl
  have width : (s.withReturns stop).width = s.width := rfl
  have lead : (s.withReturns stop).lead = s.lead := rfl
  have pending : (s.withReturns stop).pending = s.pending := rfl
  simp only [startLine, tab, width, lead, pending]
  generalize (if s.leadTab?.isSome = true then s.width else s.lead.length) = w
  split
  · simp only [List.map_append, map_withReturn_dedents]
    rfl
  · split
    · simp only [List.map_append, List.map_cons, ended]
      rfl
    · simp only [List.map_append, ended, map_withReturn_dedents]
      rfl

private theorem token_withReturns {k : TokenKind} (hk : k.isComment = false) (span : Span) :
    (s.withReturns stop).token k span
      = ((s.token k span).1.withReturns stop,
        ⟨(s.token k span).2.tokens.map (Token.withReturn stop), (s.token k span).2.errors⟩) := by
  have last : Token.withReturn stop ⟨k, span⟩ = ⟨k, span⟩ := Token.withReturn_of_isComment stop hk
  have opens : (s.withReturns stop).opening k span.start
      = ((s.opening k span.start).1.withReturns stop,
        ⟨(s.opening k span.start).2.tokens.map (Token.withReturn stop),
          (s.opening k span.start).2.errors⟩) := by
    unfold opening
    change (if s.depth = 0 && !s.hasContent then _ else _) = _
    split
    · exact startLine_withReturns stop ..
    · rfl
  rw [token_eq, token_eq, opens]
  simp only [Tokenized.ofTokens, Tokenized.tokens_append, List.map_append, List.map_cons, last]
  rfl

private theorem lineBreak_withReturns (span : Span) :
    (s.withReturns stop).lineBreak span = (s.lineBreak span).withReturns stop := by
  have depth : (s.withReturns stop).depth = s.depth := rfl
  have content : (s.withReturns stop).hasContent = s.hasContent := rfl
  simp only [lineBreak, depth, content]
  split <;> rfl

/-- The layout does not look at what comments say. -/
theorem step_withReturns (single : l.lexeme.withReturns = l.lexeme) :
    (s.withReturns stop).step (l.withReturns stop)
      = ((s.step l).1.withReturns stop,
        ⟨(s.step l).2.tokens.map (Token.withReturn stop), (s.step l).2.errors⟩) := by
  cases hk : l.kind? with
  | some k =>
    have plain : k.isComment = false := by
      have := LexemeAt.isPlain_of_kind? hk
      cases k <;> first | rfl | cases this
    have other : l.lexeme ≠ .comment := by
      rintro hl
      simp [LexemeAt.kind?, hl] at hk
    have same : l.withReturns stop = l := by
      simp [LexemeAt.withReturns, single, other]
    rw [same, step_of_kind? hk, step_of_kind? hk]
    simp only [faultyToken, token_withReturns stop plain]
    rfl
  | none =>
    rcases LexemeAt.lexeme_of_kind?_none hk with hl | hl | hl
    · have same : l.withReturns stop = l := by
        rw [LexemeAt.withReturns, single, if_neg (by simp [hl]), List.append_nil]
      rw [same, step_of_blank hl, step_of_blank hl]
      rfl
    · have same : l.withReturns stop = l := by
        rw [LexemeAt.withReturns, single, if_neg (by simp [hl]), List.append_nil]
      rw [same, step_of_lineBreak hl, step_of_lineBreak hl, lineBreak_withReturns]
      rfl
    · have text : String.ofList (l.withReturns stop).text
          = (Comment.withReturn stop ⟨String.ofList l.text, l.span⟩).text := by
        simp only [LexemeAt.withReturns, Comment.withReturn, hl, true_and, ne_eq, ite_not]
        split
        · rw [List.append_nil]
        · rw [String.ofList_append]
      have token : (⟨.comment (String.ofList (l.withReturns stop).text),
        (l.withReturns stop).span⟩ : Token)
          = Token.withReturn stop ⟨.comment (String.ofList l.text), l.span⟩ := by rw [text]; rfl
      rw [step_of_comment hl, step_of_comment (single.trans hl)]
      simp only [comment, token]
      change (if s.hasContent || 0 < s.depth then _ else _) = _
      split
      · rfl
      · simp [withReturns]

/-! ### What is wrong -/

/-- Whether one output reports the same as another. -/
theorem Alike.startLine_faults (h : s.Alike t) (isPipe : Bool) (p q : Position) :
    (s.startLine isPipe p).2.errors.map LexError.fault
      = (t.startLine isPipe q).2.errors.map LexError.fault := by
  have width : s.width = t.width := congrArg (List.headD · 0) h.indents
  have tabs (o : Option Span) : (o.toList.map fun span ↦ (⟨.tabIndentation, span⟩ : LexError)).map
      LexError.fault = if o.isSome then [.tabIndentation] else [] := by cases o <;> rfl
  simp only [Layout.startLine, isSome_leadTab?, h.indents, h.pending, h.lead, width]
  generalize (if (t.lead.findIdx? (· = '\t')).isSome = true then t.width else t.lead.length) = w
  split
  · simp only [tabs, isSome_leadTab?, h.lead]
  · split
    · simp only [tabs, isSome_leadTab?, h.lead]
    · simp only [List.map_append, tabs, isSome_leadTab?, h.lead]
      congr 1
      split <;> rfl

end Layout

/-- What is wrong within a lexeme does not depend on where it stands. -/
theorem map_fault_faults {l m : LexemeAt} (h : recast .bare l = recast .bare m) :
    l.faults.map LexError.fault = m.faults.map LexError.fault := by
  obtain ⟨lexeme, text, span⟩ := l
  obtain ⟨rfl, rfl⟩ : lexeme = m.lexeme ∧ text = m.text := lexeme_of_bare h
  unfold LexemeAt.faults
  dsimp only
  split
  · next triple body _ =>
    have bare_sequences (l : StringLiteral) :
        (recast .bare l).invalidEscapes.map Escape.sequence
          = l.invalidEscapes.map Escape.sequence := by
      simp [StringLiteral.invalidEscapes, recast, List.filter_map, Function.comp_def]
    have same := congrArg (fun l ↦ l.invalidEscapes.map Escape.sequence)
      (bare_decode span.start m.span.start triple body)
    simp only [bare_sequences] at same
    simpa [Function.comp_def] using congrArg (List.map LexFault.invalidEscape) same
  · rfl
  · rfl

/-- Layouts that are alike find the same faults. -/
theorem Layout.Alike.step_faults {s t : Layout} (h : s.Alike t) {l m : LexemeAt}
    (hl : recast .bare l = recast .bare m) :
    (s.step l).2.errors.map LexError.fault = (t.step m).2.errors.map LexError.fault := by
  have kinds := bare_kind? hl
  cases hk : l.kind? with
  | some k =>
    obtain ⟨k', hk', same⟩ : ∃ k', m.kind? = some k' ∧ recast .bare k = recast .bare k' := by
      cases hm : m.kind? <;> simp_all
    have bar : decide (k = .symbol .pipe) = decide (k' = .symbol .pipe) := by
      refine decide_eq_decide.2 ?_
      rw [← bare_eq_iff (k := k) (by simp), same, bare_eq_iff (by simp)]
    have token : (s.token k l.span).2.errors.map LexError.fault
        = (t.token k' m.span).2.errors.map LexError.fault := by
      rw [Layout.token_eq, Layout.token_eq]
      simp only [Tokenized.errors_append, List.map_append]
      congr 1
      unfold Layout.opening
      rw [h.depth, h.hasContent, bar]
      split
      · exact h.startLine_faults _ _ _
      · rfl
    rw [Layout.step_of_kind? hk, Layout.step_of_kind? hk']
    simp only [Layout.faultyToken, Tokenized.errors_append, List.map_append,
      map_fault_faults hl, token]
  | none =>
    obtain ⟨lexeme, text⟩ := lexeme_of_bare hl
    rcases LexemeAt.lexeme_of_kind?_none hk with hl | hl | hl
    · rw [Layout.step_of_blank hl, Layout.step_of_blank (lexeme ▸ hl)]
    · rw [Layout.step_of_lineBreak hl, Layout.step_of_lineBreak (lexeme ▸ hl)]
    · rw [Layout.step_of_comment hl, Layout.step_of_comment (lexeme ▸ hl)]
      simp only [Layout.comment, h.depth, h.hasContent]
      split <;> rfl

/-- What is reported of lexemes does not depend on where they stand. -/
theorem runLayout_faults {s t : Layout} (h : s.Alike t) {ls ms : List LexemeAt}
    (hl : recast .bare ls = recast .bare ms) :
    (runLayout s ls).2.errors.map LexError.fault =
    (runLayout t ms).2.errors.map LexError.fault := by
  induction ls generalizing s t ms with
  | nil =>
    obtain rfl : ms = [] := List.map_eq_nil_iff.1 hl.symm
    rfl
  | cons l ls ih =>
    cases ms with
    | nil => contradiction
    | cons m ms =>
      obtain ⟨first, rest⟩ := List.cons.inj hl
      have here : (s.step l).2.errors.map LexError.fault = (t.step m).2.errors.map LexError.fault :=
        h.step_faults first
      simp only [runLayout, Tokenized.errors_append, List.map_append, here,
        ih (h.step first).1 rest]

/-! ## Whole texts -/

private theorem runLayout_bare (s : Layout) (ls : List LexemeAt) :
    runLayout s (ls.map LexemeAt.bare) = runLayout s ls := by
  induction ls generalizing s with
  | nil => rfl
  | cons l ls ih => simp only [List.map_cons, runLayout, Layout.step_bare, ih]

private theorem runLayout_withReturns (stop : Position) (s : Layout) {ls : List LexemeAt}
    (single : ∀ l ∈ ls, l.lexeme.withReturns = l.lexeme) :
    runLayout (s.withReturns stop) (ls.map (LexemeAt.withReturns stop))
      = ((runLayout s ls).1.withReturns stop,
        ⟨(runLayout s ls).2.tokens.map (Token.withReturn stop), (runLayout s ls).2.errors⟩) := by
  induction ls generalizing s with
  | nil => rfl
  | cons l ls ih =>
    obtain ⟨first, rest⟩ := List.forall_mem_cons.1 single
    simp only [List.map_cons, runLayout, Layout.step_withReturns stop first, ih _ rest,
      Tokenized.tokens_append, Tokenized.errors_append, List.map_append]
    rfl

private theorem Layout.closing_withReturns (stop : Position) (s : Layout) (p : Position) :
    (s.withReturns stop).closing p = (s.closing p).map (Token.withReturn stop) := by
  simp only [Layout.closing, List.map_append, Layout.map_withReturn_dedents]
  congr 2
  have pending : (s.withReturns stop).pending = s.pending := rfl
  have content : (s.withReturns stop).hasContent = s.hasContent := rfl
  rw [pending, content]
  cases s.pending with
  | some span => rfl
  | none => dsimp only; split <;> rfl

/-- A text whose literals keep to a line gives the same tokens with returns, but for the ends of
comments, and the same is wrong with it. -/
theorem tokensOf_withReturns {text : List Char} (plain : '\r' ∉ text)
    (single : ∀ l ∈ lexemes .start text, l.lexeme.withReturns = l.lexeme) :
    recast .bare (tokensOf (withReturns text))
        = recast .bare ((tokensOf text).map (Token.withReturn (Position.start.after text)))
      ∧ (tokenizeChars (withReturns text)).errors.map LexError.fault
        = (tokenizeChars text).errors.map LexError.fault := by
  have same := lexemes_withReturns .start .start plain (.inl rfl)
  have start : ({} : Layout).Alike {} := ⟨rfl, rfl, rfl, rfl, rfl, rfl⟩
  obtain ⟨alike, tokens⟩ := runLayout_alike start same
  have faults := runLayout_faults start same
  rw [runLayout_bare, runLayout_bare] at alike tokens faults
  have run := runLayout_withReturns (Position.start.after text) {} single
  change runLayout {} _ = _ at run
  rw [run] at alike tokens faults
  constructor
  · have closing := alike.closing (Position.start.after (withReturns text))
      (Position.start.after text)
    rw [Layout.closing_withReturns] at closing
    rw [tokensOf, tokensOf, List.map_append, recast_append, recast_append, tokens, finalLayout,
      finalLayout, closing]
  · simpa [tokenizeChars, Tokenized.ofTokens] using faults

/-- Whether a token is a literal that may go over several lines. -/
def TokenKind.isLiteral : TokenKind → Bool
  | string _ | discretion _ => true
  | _ => false

/-- A literal that starts and ends on one line is the same in the text with returns. -/
theorem single_of_tokens {source : String}
    (within : ∀ t ∈ (tokenize source).tokens,
      t.kind.isLiteral = true → t.span.start.line = t.span.stop.line) :
    ∀ l ∈ lexemes .start source.toList, l.lexeme.withReturns = l.lexeme := by
  intro l hl
  have written := isWritten_of_mem_lexemes hl
  have feed (kind : TokenKind) (hkind : l.token? = some ⟨kind, l.span⟩)
    (literal : kind.isLiteral = true) :
      '\n' ∉ l.text := by
    have mem : ⟨kind, l.span⟩ ∈ visible (tokenize source).tokens := by
      rw [tokenize, visible_tokenizeChars]
      exact List.mem_filterMap.2 ⟨l, hl, hkind⟩
    obtain ⟨before, after, -, place⟩ := span_of_mem_lexemes hl
    have line := within _ (List.mem_filter.1 mem).1 literal
    rw [place, Position.after_append] at line
    dsimp only at line
    rw [Position.line_after _ l.text] at line
    exact List.count_eq_zero.1 (by omega)
  cases hlex : l.lexeme with
  | quoted triple body =>
    rw [hlex] at written
    have within : '\n' ∉ body := fun mem ↦ feed _ (by rw [LexemeAt.token?, hlex]) rfl
      (written ▸ List.mem_append_left _ (List.mem_append_right _ mem))
    rw [Lexeme.withReturns, withReturns_of_not_mem within]
  | discretion multiline body =>
    rw [hlex] at written
    have within : '\n' ∉ body := fun mem ↦ feed _ (by rw [LexemeAt.token?, hlex]) rfl
      (written ▸ List.mem_append_left _ (List.mem_append_right _ mem))
    rw [Lexeme.withReturns, withReturns_of_not_mem within]
  | _ => rfl

end ProseLang
