import ProseLang.Token.Lexeme

/-!
# Lexemes of texts one after the other

A text that ends with a line break falls apart into the same lexemes whatever follows it, as long
as each of its literals is closed (`lexemes_append`).
-/

namespace ProseLang

/-- Whether a text ends with a line break, if it has any characters. -/
def endsLine (text : List Char) : Bool := text.getLast?.all (· = '\n')

private theorem endsLine_cons {c : Char} {text : List Char} (h : endsLine (c :: text) = true) :
    endsLine text = true := by
  cases text with
  | nil => rfl
  | cons d text => simpa [endsLine] using h

private theorem endsLine_append {a b : List Char} (h : endsLine (a ++ b) = true) :
    endsLine b = true := by
  induction a with
  | nil => exact h
  | cons c a ih => exact ih (endsLine_cons h)

/-- A text that ends with a line break and starts with another character goes on after it. -/
theorem exists_cons_of_endsLine {c : Char} {text : List Char} (h : endsLine (c :: text) = true)
    (hc : c ≠ '\n') : ∃ d rest, text = d :: rest := by
  cases text with
  | nil => simp [endsLine, hc] at h
  | cons d rest => exact ⟨d, rest, rfl⟩

private theorem mem_of_endsLine {text : List Char} (h : endsLine text = true) (hne : text ≠ []) :
    '\n' ∈ text := by
  have last := List.getLast_mem hne
  have : text.getLast hne = '\n' := by
    simpa [endsLine, List.getLast?_eq_some_getLast hne] using h
  rwa [this] at last

section Classes

variable {p : Char → Bool} {text : List Char}

private theorem takeWhile_append_of_mem (rest : List Char) {c : Char} (hc : c ∈ text)
    (hp : p c = false) : (text ++ rest).takeWhile p = text.takeWhile p
      ∧ (text ++ rest).dropWhile p = text.dropWhile p ++ rest := by
  induction text with
  | nil => simp at hc
  | cons d text ih =>
    cases hd : p d with
    | false => simp [hd]
    | true =>
      have : c ∈ text := by
        rcases List.mem_cons.1 hc with rfl | h
        · rw [hp] at hd
          contradiction
        · exact h
      simp [hd, ih this]

end Classes

/-- Whether parts of a text are those of a longer one, with all that is longer on the right. -/
structure Parts.Extends {text more : List Char} (p : Parts text) (p' : Parts (text ++ more)) :
    Prop where
  taken : p'.taken = p.taken
  rest : p'.rest = p.rest ++ more

namespace Parts

variable {text : List Char}

private theorem ofClass_extends {p : Char → Bool} (more : List Char) {c : Char} (hc : c ∈ text)
    (hp : p c = false) : (ofClass p text).Extends (ofClass p (text ++ more)) :=
  ⟨(takeWhile_append_of_mem more hc hp).1, (takeWhile_append_of_mem more hc hp).2⟩

private theorem Extends.cons {more : List Char} {p : Parts text} {p' : Parts (text ++ more)}
    (h : p.Extends p') (c : Char) : (p.cons c).Extends (p'.cons c) :=
  ⟨congrArg (c :: ·) h.taken, h.rest⟩

private theorem ofName_extends (more : List Char) (h : endsLine text = true) (hne : text ≠ []) :
    (ofName text).Extends (ofName (text ++ more)) := by
  fun_induction ofName text with
  | case1 => contradiction
  | case2 c hc =>
    obtain rfl : c = '\n' := by simpa [endsLine] using h
    contradiction
  | case3 c hc =>
    obtain rfl : c = '\n' := by simpa [endsLine] using h
    cases more with
    | nil => exact ⟨rfl, rfl⟩
    | cons d more => exact ⟨rfl, rfl⟩
  | case4 c d text hc ih =>
    have step : ofName (c :: d :: text ++ more) = (ofName (d :: text ++ more)).cons c := by
      simp [ofName, hc]
    rw [step]
    exact (ih (endsLine_cons h) (by simp)).cons c
  | case5 c d text hc hd ih =>
    have step : ofName (c :: d :: text ++ more) = ((ofName (text ++ more)).cons d).cons c := by
      simp only [List.cons_append, ofName, if_neg hc, if_pos hd]
    have more : text ≠ [] := by
      rintro rfl
      have : d = '\n' := by simpa [endsLine] using h
      subst this
      simp [isNameChar] at hd
    rw [step]
    exact ((ih (endsLine_cons (endsLine_cons h)) more).cons d).cons c
  | case6 c d text hc hd =>
    have step : ofName (c :: d :: text ++ more) = none (c :: d :: text ++ more) := by
      simp only [List.cons_append, ofName, if_neg hc, if_neg hd]
    rw [step]
    exact ⟨rfl, rfl⟩

private theorem endsLine_rest {p : Parts text} (h : endsLine text = true) :
    endsLine p.rest = true :=
  endsLine_append (p.taken_append_rest ▸ h)

/-- What a literal of characters other than a line break leaves of a line has its end. -/
theorem rest_ne_nil {p : Parts text} (h : endsLine text = true) (hne : text ≠ [])
    (hp : '\n' ∉ p.taken) : p.rest ≠ [] := by
  intro hnil
  have := mem_of_endsLine h hne
  rw [← p.taken_append_rest, hnil, List.append_nil] at this
  exact hp this

/-- The characters of a word are those of names, and hyphens. -/
theorem isNameChar_of_mem_ofName {c : Char} (h : c ∈ (ofName text).taken) :
    isNameChar c = true ∨ c = '-' := by
  fun_induction ofName text with
  | case1 => simp [none] at h
  | case2 d hd =>
    obtain rfl : c = d := by simpa [cons, none] using h
    exact .inl hd
  | case3 => simp [none] at h
  | case4 d e text hd ih =>
    rcases List.mem_cons.1 h with rfl | h
    · exact .inl hd
    · exact ih h
  | case5 d e text hd he ih =>
    obtain ⟨dash, char⟩ := Bool.and_eq_true_iff.1 he
    rcases List.mem_cons.1 h with rfl | h
    · exact .inr (by simpa using dash)
    · rcases List.mem_cons.1 h with rfl | h
      · exact .inl char
      · exact ih h
  | case6 => simp [none] at h

private theorem newline_not_mem_ofClass {p : Char → Bool} (hp : p '\n' = false) :
    '\n' ∉ (ofClass p text).taken := by
  intro h
  have := List.all_eq_true.1 (List.all_takeWhile (l := text) (p := p)) _ h
  rw [hp] at this
  contradiction

private theorem newline_not_mem_ofName : '\n' ∉ (ofName text).taken := by
  intro h
  have := isNameChar_of_mem_ofName h
  revert this
  decide

/-- A number with a point. -/
theorem ofNumber_of_point {d : Char} {rest : List Char}
    (h : (ofClass Char.isDigit text).rest = '.' :: d :: rest) (hd : d.isDigit = true) :
    (ofNumber text).taken
        = (ofClass Char.isDigit text).taken ++ '.' :: (ofClass Char.isDigit (d :: rest)).taken
      ∧ (ofNumber text).rest = (ofClass Char.isDigit (d :: rest)).rest := by
  unfold ofNumber
  dsimp only
  split
  · next d' rest' h' =>
    obtain ⟨rfl, rfl⟩ : d = d' ∧ rest = rest' := by simpa [h] using h'
    rw [if_pos hd]
    exact ⟨rfl, rfl⟩
  · next other => exact absurd h (other d rest)

/-- A whole number. -/
theorem ofNumber_of_whole
    (h : ∀ d rest, (ofClass Char.isDigit text).rest = '.' :: d :: rest → d.isDigit = false) :
    ofNumber text = ofClass Char.isDigit text := by
  unfold ofNumber
  dsimp only
  split
  · next d rest h' => rw [if_neg (by rw [h d rest h']; exact Bool.false_ne_true)]
  · rfl

private theorem newline_not_mem_ofNumber : '\n' ∉ (ofNumber text).taken := by
  by_cases point : ∃ d r, (ofClass Char.isDigit text).rest = '.' :: d :: r ∧ d.isDigit = true
  · obtain ⟨d, r, hr, hd⟩ := point
    rw [(ofNumber_of_point hr hd).1, List.mem_append, List.mem_cons]
    rintro (h | h | h)
    · exact newline_not_mem_ofClass rfl h
    · contradiction
    · exact newline_not_mem_ofClass rfl h
  · rw [ofNumber_of_whole fun d r hr ↦ Bool.not_eq_true _ ▸ fun hd ↦ point ⟨d, r, hr, hd⟩]
    exact newline_not_mem_ofClass rfl

private theorem ofNumber_extends (more : List Char) (h : endsLine text = true) (hne : text ≠ []) :
    (ofNumber text).Extends (ofNumber (text ++ more)) := by
  have whole := ofClass_extends more (mem_of_endsLine h hne) (p := Char.isDigit) rfl
  have ends : endsLine (ofClass Char.isDigit text).rest = true := endsLine_rest h
  have rest := whole.rest
  by_cases point : ∃ d r, (ofClass Char.isDigit text).rest = '.' :: d :: r ∧ d.isDigit = true
  · obtain ⟨d, r, hr, hd⟩ := point
    rw [hr] at rest ends
    obtain ⟨taken, left⟩ := ofNumber_of_point hr hd
    obtain ⟨taken', left'⟩ := ofNumber_of_point rest hd
    have fraction := ofClass_extends more
      (mem_of_endsLine (endsLine_cons ends) (by simp)) (p := Char.isDigit) rfl
    exact ⟨by rw [taken, taken', whole.taken, ← fraction.taken]; rfl,
      by rw [left, left', ← fraction.rest]; rfl⟩
  · have none : ∀ d r, (ofClass Char.isDigit text).rest = '.' :: d :: r → d.isDigit = false :=
      fun d r hr ↦ Bool.not_eq_true _ ▸ fun hd ↦ point ⟨d, r, hr, hd⟩
    rw [ofNumber_of_whole none, ofNumber_of_whole]
    · exact whole
    · intro d r hr
      rw [rest] at hr
      cases hl : (ofClass Char.isDigit text).rest with
      | nil =>
        exact absurd hl (rest_ne_nil h hne (newline_not_mem_ofClass rfl))
      | cons c left =>
        rw [hl] at hr ends
        obtain ⟨rfl, tail⟩ := List.cons.inj hr
        obtain ⟨d', left, rfl⟩ := exists_cons_of_endsLine ends (by decide)
        obtain rfl : d' = d := (List.cons.inj tail).1
        exact none _ _ hl

end Parts

/-- Whether the rest of a literal is that in a longer text, with all that is longer after it. -/
structure Tail.Extends {marker text more : List Char} (t : Tail marker text)
    (t' : Tail marker (text ++ more)) : Prop where
  closed : t'.closed = t.closed
  body : t'.body = t.body
  rest : t'.rest = t.rest ++ more

namespace Tail

variable {marker text : List Char}

private theorem Extends.cons {more : List Char} {t : Tail marker text}
    {t' : Tail marker (text ++ more)}
    (h : t.Extends t') (c : Char) : (t.cons c).Extends (t'.cons c) :=
  ⟨h.closed, congrArg (c :: ·) h.body, h.rest⟩

/-- A string that is closed does not depend on what follows it. -/
theorem ofQuoted_extends (more : List Char) {escaped : Bool}
    (h : (ofQuoted escaped text).closed = true) :
    (ofQuoted escaped text).Extends (ofQuoted escaped (text ++ more)) := by
  fun_induction ofQuoted escaped text with
  | case1 => simp [stop] at h
  | case2 escaped c text hc => simp [stop] at h
  | case3 escaped c text hc hq =>
    obtain ⟨rfl, rfl⟩ := hq
    exact ⟨rfl, rfl, rfl⟩
  | case4 escaped c text hc hq ih =>
    have step : ofQuoted escaped (c :: text ++ more)
        = (ofQuoted (c = '\\' && !escaped) (text ++ more)).cons c := by
      simp only [List.cons_append, ofQuoted, if_neg hc, dif_neg hq]
    rw [step]
    exact (ih h).cons c

@[inherit_doc ofQuoted_extends]
theorem ofTripleQuoted_extends (more : List Char) (h : (ofTripleQuoted text).closed = true) :
    (ofTripleQuoted text).Extends (ofTripleQuoted (text ++ more)) := by
  fun_induction ofTripleQuoted text with
  | case1 => simp [stop] at h
  | case2 c text ih => exact ((ih h).cons c).cons '\\'
  | case3 text => exact ⟨rfl, rfl, rfl⟩
  | case4 c text hescape hclose ih =>
    have goes : text ≠ [] := by
      rintro rfl
      simp [ofTripleQuoted, Tail.cons, stop] at h
    have step : ofTripleQuoted (c :: text ++ more) = (ofTripleQuoted (text ++ more)).cons c := by
      change ofTripleQuoted (c :: (text ++ more)) = _
      rw [ofTripleQuoted]
      · rintro d rest rfl heq
        cases text with
        | nil => contradiction
        | cons e text => exact hescape e text rfl rfl
      · rintro rest rfl heq
        match text, goes with
        | [e], _ => 
          obtain ⟨rfl, -⟩ := List.cons.inj heq
          simp [ofTripleQuoted, Tail.cons, stop] at h
        | e :: e' :: text, _ =>
          obtain ⟨rfl, tail⟩ := List.cons.inj heq
          obtain ⟨rfl, -⟩ := List.cons.inj tail
          exact hclose text rfl rfl
    rw [step]
    exact (ih h).cons c

/-- A discretion that is closed does not depend on what follows its line. -/
theorem ofDiscretion_extends (more : List Char) {multiline inRun : Bool}
    (ends : endsLine text = true) (h : (ofDiscretion multiline inRun text).closed = true) :
    (ofDiscretion multiline inRun text).Extends (ofDiscretion multiline inRun (text ++ more)) := by
  have runs : ∀ {text : List Char}, endsLine ('*' :: text) = true →
      starRun ('*' :: text ++ more) = starRun ('*' :: text)
      ∧ ('*' :: text ++ more).dropWhile (· = '*') = ('*' :: text).dropWhile (· = '*') ++ more := by
    intro text ends
    have := takeWhile_append_of_mem more (p := (· = '*')) (mem_of_endsLine ends (by simp)) rfl
    exact ⟨congrArg List.length this.1, this.2⟩
  fun_induction ofDiscretion multiline inRun text with
  | case1 => simp [stop] at h
  | case2 inRun text hrun =>
    obtain ⟨run, left⟩ := runs ends
    rw [← run] at hrun
    have step : (ofDiscretion multiline inRun ('*' :: text ++ more)).closed = true
        ∧ (ofDiscretion multiline inRun ('*' :: text ++ more)).body = []
        ∧ (ofDiscretion multiline inRun ('*' :: text ++ more)).rest
          = ('*' :: text ++ more).dropWhile (· = '*') := by
      change (ofDiscretion multiline inRun ('*' :: (text ++ more))).closed = true
        ∧ (ofDiscretion multiline inRun ('*' :: (text ++ more))).body = []
        ∧ (ofDiscretion multiline inRun ('*' :: (text ++ more))).rest = _
      rw [ofDiscretion, if_pos rfl, dif_pos (by simpa using hrun)]
      exact ⟨rfl, rfl, rfl⟩
    exact ⟨step.1, step.2.1, step.2.2.trans left⟩
  | case3 inRun text hrun ih =>
    rw [← (runs ends).1] at hrun
    have step : ofDiscretion multiline inRun ('*' :: text ++ more)
        = (ofDiscretion multiline true (text ++ more)).cons '*' := by
      change ofDiscretion multiline inRun ('*' :: (text ++ more)) = _
      rw [ofDiscretion, if_pos rfl, dif_neg (by simpa using hrun)]
    rw [step]
    exact (ih (endsLine_cons ends) h).cons '*'
  | case4 inRun c text hc hstop => simp [stop] at h
  | case5 inRun c text hc hstop ih =>
    have step : ofDiscretion multiline inRun (c :: text ++ more)
        = (ofDiscretion multiline false (text ++ more)).cons c := by
      change ofDiscretion multiline inRun (c :: (text ++ more)) = _
      rw [ofDiscretion, if_neg hc, if_neg hstop]
    rw [step]
    exact (ih (endsLine_cons ends) h).cons c

end Tail

/-- Whether a lexeme is the first of two texts, with all that is longer in the second after it. -/
structure Cut.Extends {text text' : List Char} (more : List Char) (cut : Cut text)
    (cut' : Cut text') : Prop where
  lexeme : cut'.lexeme = cut.lexeme
  taken : cut'.taken = cut.taken
  rest : cut'.rest = cut.rest ++ more

namespace Cut

variable {text more : List Char}

private theorem ofParts_extends {c : Char} {lexeme : Lexeme} {p : Parts text}
    {p' : Parts (text ++ more)}
    (h : p.Extends p') : (ofParts lexeme c p).Extends more (ofParts lexeme c p') :=
  ⟨rfl, congrArg (c :: ·) h.taken, h.rest⟩

private theorem ofTail_extends {opener marker : List Char}
    (hne : opener ≠ []) {t : Tail marker text}
    {t' : Tail marker (text ++ more)} {closed : List Char → Lexeme} {fault : LexFault}
    (h : t.Extends t') :
    (ofTail opener hne t closed fault).Extends more (ofTail opener hne t' closed fault) :=
  ⟨by simp only [ofTail, h.closed, h.body], by simp only [ofTail, h.closed, h.body], h.rest⟩

/-- A literal that is not at fault is closed. -/
theorem closed_of_ofTail {opener marker : List Char} {hne : opener ≠ []} {t : Tail marker text}
    {closed : List Char → Lexeme} {fault : LexFault}
    (h : ∀ f, (ofTail opener hne t closed fault).lexeme ≠ .faulty f) : t.closed = true := by
  cases ht : t.closed with
  | true => rfl
  | false => exact absurd (by simp [ofTail, ht]) (h fault)

/-- A string that does not start with two more quotes is in single quotes. -/
theorem first_quote (h : ∀ rest, text ≠ '"' :: '"' :: rest) :
    first '"' text = ofTail ['"'] (by simp) (Tail.ofQuoted false text) (.quoted false)
      .unterminatedString := by
  rw [first, if_neg (by decide), if_neg (by decide), if_neg (by decide)]
  exact h

/-- A discretion that does not start with a third asterisk has two. -/
theorem first_stars (h : ∀ rest, text ≠ '*' :: rest) :
    first '*' ('*' :: text) = ofTail ['*', '*'] (by simp) (Tail.ofDiscretion false false text)
      (.discretion false) (.unterminatedDiscretion false) := by
  rw [first, if_neg (by decide), if_neg (by decide), if_neg (by decide)]
  exact h

/-- A character that starts nothing longer is a mark by itself, or no token. -/
theorem first_other {c : Char} (blank : ¬isBlank c = true) (name : ¬isNameStart c = true)
    (number : ¬c.isDigit = true) (feed : c ≠ '\n') (comment : c ≠ '#') (quote : c ≠ '"')
    (noReturn : c ≠ '\r') (stars : c = '*' → text.head? ≠ some '*')
    (arrow : c = '-' → text.head? ≠ some '>') :
    first c text = match Punctuation.ofChar? c with
      | some mark => one (.symbol mark) c text
      | none => one (.faulty (.unexpectedCharacter c)) c text := by
  rewrite [first, if_neg blank, if_neg name, if_neg number]
  · rfl
  · exact feed
  · exact comment
  · exact quote
  · exact fun _ hc _ ↦ noReturn hc
  · exact fun _ hc _ ↦ quote hc
  · exact fun rest hc heq ↦ stars hc (by rw [heq]; rfl)
  · exact fun rest hc heq ↦ stars hc (by rw [heq]; rfl)
  · exact fun rest hc heq ↦ arrow hc (by rw [heq]; rfl)

/-- The first lexeme of a line that is sound does not depend on what follows the line. -/
theorem first_extends (more : List Char) {c : Char} (ends : endsLine (c :: text) = true)
    (sound : ∀ fault, (first c text).lexeme ≠ .faulty fault) :
    (first c text).Extends more (first c (text ++ more)) := by
  have line := endsLine_cons ends
  have goes : c ≠ '\n' → text ≠ [] := by
    rintro hc rfl
    exact hc (by simpa [endsLine] using ends)
  by_cases blank : isBlank c = true
  · have hne := goes (by rintro rfl; contradiction)
    simp only [first, if_pos blank]
    exact ofParts_extends (Parts.ofClass_extends more (mem_of_endsLine line hne) rfl)
  by_cases name : isNameStart c = true
  · have hne := goes (by rintro rfl; contradiction)
    have extends' := Parts.ofName_extends more line hne
    have left : (Parts.ofName text).rest ≠ [] :=
      Parts.rest_ne_nil line hne Parts.newline_not_mem_ofName
    have head : (Parts.ofName (text ++ more)).rest.head? = (Parts.ofName text).rest.head? := by
      rw [extends'.rest, List.head?_append, Option.or_of_isSome (by simp [left])]
    simp only [first, if_neg blank, if_pos name, head, extends'.taken]
    exact ofParts_extends extends'
  by_cases number : c.isDigit = true
  · have hne := goes (by rintro rfl; contradiction)
    simp only [first, if_neg blank, if_neg name, if_pos number]
    exact ofParts_extends (Parts.ofNumber_extends more line hne)
  simp only [first, if_neg blank, if_neg name, if_neg number] at sound
  split at sound
  · exact ⟨rfl, rfl, rfl⟩
  · exact ⟨rfl, rfl, rfl⟩
  · exact ofParts_extends (Parts.ofClass_extends more (mem_of_endsLine line (goes (by decide))) rfl)
  · exact ofTail_extends (by simp)
      (Tail.ofTripleQuoted_extends more (closed_of_ofTail sound))
  · next notTriple =>
    have notTriple' : ∀ rest, text ++ more ≠ '"' :: '"' :: rest := by
      intro rest heq
      obtain ⟨d, text, rfl⟩ := exists_cons_of_endsLine ends (by decide)
      obtain rfl : d = '"' := (List.cons.inj heq).1
      obtain ⟨d, text, rfl⟩ := exists_cons_of_endsLine line (by decide)
      obtain rfl : d = '"' := (List.cons.inj (List.cons.inj heq).2).1
      exact notTriple _ rfl
    rw [first_quote notTriple, first_quote notTriple']
    exact ofTail_extends _ (Tail.ofQuoted_extends more (closed_of_ofTail sound))
  · exact ofTail_extends (by simp) (Tail.ofDiscretion_extends more
      (endsLine_cons (endsLine_cons line)) (closed_of_ofTail sound))
  · next text notTriple =>
    have notTriple' : ∀ rest, text ++ more ≠ '*' :: rest := by
      intro rest heq
      obtain ⟨d, text, rfl⟩ := exists_cons_of_endsLine line (by decide)
      obtain rfl : d = '*' := (List.cons.inj heq).1
      exact notTriple _ rfl
    rw [first_stars notTriple, List.cons_append, first_stars notTriple']
    exact ofTail_extends _ (Tail.ofDiscretion_extends more (endsLine_cons line)
      (closed_of_ofTail sound))
  · exact ⟨rfl, rfl, rfl⟩
  · split at sound
    · next mark hmark =>
      unfold Punctuation.ofChar? at hmark
      split at hmark <;> first | contradiction | exact ⟨rfl, rfl, rfl⟩
    · exact absurd rfl (sound _)

/-- Whether a lexeme that ends with a line break is one, or is no token. -/
def BreaksLine (cut : Cut text) : Prop :=
  cut.taken.getLast? = some '\n' → cut.lexeme = .lineBreak ∨ ∃ fault, cut.lexeme = .faulty fault

private theorem breaksLine_ofParts {c : Char} {lexeme : Lexeme} {p : Parts text} (hc : c ≠ '\n')
    (hp : '\n' ∉ p.taken) : (ofParts lexeme c p).BreaksLine := fun h ↦ by
  have : '\n' ∈ c :: p.taken := List.mem_of_getLast? h
  rcases List.mem_cons.1 this with h | h
  · exact absurd h.symm hc
  · exact absurd h hp

private theorem breaksLine_ofTail {opener marker : List Char}
    (hne : opener ≠ []) {t : Tail marker text}
    {closed : List Char → Lexeme} {fault : LexFault} (hm : marker ≠ [])
    (hlast : marker.getLast? ≠ some '\n') : (ofTail opener hne t closed fault).BreaksLine :=
  fun h ↦ by
  cases ht : t.closed with
  | false => exact .inr ⟨fault, by simp [ofTail, ht]⟩
  | true =>
    simp only [ofTail, ht, if_true, List.getLast?_append] at h
    rw [Option.or_of_isSome (by simp [hm])] at h
    exact absurd h hlast

/-- A lexeme that ends with a line break is one, or is no token. -/
theorem breaksLine_first (c : Char) (text : List Char) : (first c text).BreaksLine := by
  unfold first
  split
  · next h =>
      exact breaksLine_ofParts (by rintro rfl; contradiction) (Parts.newline_not_mem_ofClass rfl)
  split
  · exact breaksLine_ofParts (by rintro rfl; contradiction) Parts.newline_not_mem_ofName
  split
  · exact breaksLine_ofParts (by rintro rfl; contradiction) Parts.newline_not_mem_ofNumber
  split
  · exact fun _ ↦ .inl rfl
  · exact fun _ ↦ .inl rfl
  · exact breaksLine_ofParts (by decide) (Parts.newline_not_mem_ofClass rfl)
  · exact breaksLine_ofTail _ (by decide) (by decide)
  · exact breaksLine_ofTail _ (by decide) (by decide)
  · exact breaksLine_ofTail _ (by decide) (by decide)
  · exact breaksLine_ofTail _ (by decide) (by decide)
  · exact fun h ↦ absurd (show ['-', '>'].getLast? = some '\n' from h) (by decide)
  · next notBreak _ _ _ _ _ _ _ =>
    split
    · exact fun h ↦ absurd (Option.some.inj h) notBreak
    · exact fun _ ↦ .inr ⟨_, rfl⟩

end Cut

/-- The lexemes of a text that ends its last line, followed by more text. -/
theorem lexemes_append (p : Position) {text : List Char} (more : List Char)
    (ends : endsLine text = true) (sound : ∀ l ∈ lexemes p text, ∀ fault, l.lexeme ≠ .faulty
      fault) :
    lexemes p (text ++ more) = lexemes p text ++ lexemes (p.after text) more := by
  fun_induction lexemes p text with
  | case1 => rfl
  | case2 p c text cut ih =>
    have first := Cut.first_extends more ends fun fault ↦ sound _ List.mem_cons_self fault
    have left : endsLine cut.rest = true := endsLine_append (cut.taken_append_rest ▸ ends)
    have after : (p.after cut.taken).after cut.rest = p.after (c :: text) := by
      rw [← Position.after_append, cut.taken_append_rest]
    rw [List.cons_append, lexemes, first.lexeme, first.taken, first.rest,
      ih left (fun l hl ↦ sound l (List.mem_cons_of_mem _ hl)), after, List.cons_append]

/-- The last lexeme of a text that ends its last line is a line break. -/
theorem getLast?_lexemes (p : Position) {text : List Char} (ends : endsLine text = true)
    (sound : ∀ l ∈ lexemes p text, ∀ fault, l.lexeme ≠ .faulty fault) :
    ∀ l ∈ (lexemes p text).getLast?, l.lexeme = .lineBreak := by
  fun_induction lexemes p text with
  | case1 => simp
  | case2 p c text cut ih =>
    have left : endsLine cut.rest = true := endsLine_append (cut.taken_append_rest ▸ ends)
    have rest := ih left fun l hl ↦ sound l (List.mem_cons_of_mem _ hl)
    intro l hl
    rw [List.getLast?_cons] at hl
    cases hlast : (lexemes (p.after cut.taken) cut.rest).getLast? with
    | some m => exact rest l (by simpa [hlast] using hl)
    | none =>
      obtain rfl : _ = l := by simpa [hlast] using hl
      have nothing : cut.rest = [] := by
        cases hr : cut.rest with
        | nil => rfl
        | cons d rest => simp [hr, lexemes] at hlast
      have taken : cut.taken = c :: text := by
        simpa [nothing] using cut.taken_append_rest
      have last : cut.taken.getLast? = some '\n' := by
        rw [taken]
        simpa [endsLine, List.getLast?_cons] using ends
      refine (Cut.breaksLine_first c text last).resolve_right ?_
      rintro ⟨fault, h⟩
      exact sound _ List.mem_cons_self fault h

end ProseLang
