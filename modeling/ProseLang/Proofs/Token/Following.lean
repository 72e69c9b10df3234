import ProseLang.Proofs.Token.Quotes

/-!
# Lexemes before another text

Where a lexeme ends depends on little of what follows it (`Lexeme.EndsBefore`): a string in single
quotes may end before everything unless it is empty, a discretion before every text that does not
start with an asterisk. A lexeme that ends before a text is the first one there (`Cut.heads_first`),
and one that ends before a text ends before every text that starts alike, or that ends the line
where blanks or a comment stood (`Continues.endsBefore`).
-/

namespace ProseLang

/-- Whether a text that something follows starts with a lexeme that takes just the text. -/
def Lexeme.Heads (x : Lexeme) (taken rest : List Char) : Prop :=
  ∃ c text, taken ++ rest = c :: text
    ∧ (Cut.first c text).lexeme = x ∧ (Cut.first c text).taken = taken

/-- The lexeme comes first, and then those of the rest. -/
theorem lexemes_of_heads {x : Lexeme} {taken rest : List Char} (h : x.Heads taken rest)
    (p : Position) : lexemes p (taken ++ rest)
      = ⟨x, taken, ⟨p, p.after taken⟩⟩ :: lexemes (p.after taken) rest := by
  obtain ⟨c, text, whole, rfl, first⟩ := h
  have left : (Cut.first c text).rest = rest := by
    have all := (Cut.first c text).taken_append_rest.trans whole.symm
    rwa [first, List.append_cancel_left_eq] at all
  rw [whole, lexemes, first, left]

/-! ## Parts of lexemes -/

/-- Characters of a class are taken up to the first that is none of it. -/
theorem span_append_of_stops {p : Char → Bool} {taken rest : List Char}
    (all : ∀ c ∈ taken, p c = true) (stops : rest.head?.any p = false) :
    (taken ++ rest).takeWhile p = taken ∧ (taken ++ rest).dropWhile p = rest := by
  rw [List.takeWhile_append_of_pos all, List.dropWhile_append_of_pos all]
  cases rest with
  | nil => exact ⟨List.append_nil taken, rfl⟩
  | cons c rest =>
    have other : p c = false := stops
    simp [other]

namespace Parts

variable {text rest : List Char}

private theorem stops_ofClass (p : Char → Bool) (text : List Char) :
    (ofClass p text).rest.head?.any p = false := by
  change (text.dropWhile p).head?.any p = false
  induction text with
  | nil => rfl
  | cons c text ih =>
    cases hc : p c with
    | true => simpa [hc] using ih
    | false => simp [hc]

/-- Characters of a class before a character of another class. -/
theorem ofClass_append {p : Char → Bool} (text : List Char) (stops : rest.head?.any p = false) :
    (ofClass p ((ofClass p text).taken ++ rest)).taken = (ofClass p text).taken
      ∧ (ofClass p ((ofClass p text).taken ++ rest)).rest = rest :=
  span_append_of_stops (fun _ hc ↦ List.all_eq_true.1 List.all_takeWhile _ hc) stops

/-- Whether a text does not go on with a name: neither with a name character nor with a hyphen
before one. -/
def StopsName : List Char → Prop
  | [] => True
  | c :: rest => isNameChar c = false ∧ (c = '-' → rest.head?.any isNameChar = false)

private theorem ofName_of_stops (h : StopsName rest) :
    (ofName rest).taken = [] ∧ (ofName rest).rest = rest := by
  cases rest with
  | nil => exact ⟨rfl, rfl⟩
  | cons c rest =>
    obtain ⟨other, dash⟩ := h
    cases rest with
    | nil => simp [ofName, other, none]
    | cons d rest =>
      have apart : (c = '-' && isNameChar d) = false := by
        by_cases hc : c = '-'
        · simpa [hc] using dash hc
        · simp [hc]
      simp [ofName, other, apart, none]

private theorem stops_ofName (text : List Char) : StopsName (ofName text).rest := by
  fun_induction ofName text with
  | case1 | case2 => trivial
  | case3 c hc => exact ⟨by simpa using hc, fun _ ↦ rfl⟩
  | case4 c d text hc ih => exact ih
  | case5 c d text hc hd ih => exact ih
  | case6 c d text hc hd => exact ⟨by simpa using hc, fun dash ↦ by simpa [dash] using hd⟩

/-- The rest of a name before what is no part of one. -/
theorem ofName_append (text : List Char) (stops : StopsName rest) :
    (ofName ((ofName text).taken ++ rest)).taken = (ofName text).taken
      ∧ (ofName ((ofName text).taken ++ rest)).rest = rest := by
  have step {c : Char} (hc : isNameChar c = true) (more : List Char) :
      ofName (c :: more) = (ofName more).cons c := by
    cases more <;> simp [ofName, hc]
  fun_induction ofName text with
  | case1 | case3 | case6 => exact ofName_of_stops stops
  | case2 c hc =>
    change (ofName (c :: rest)).taken = [c] ∧ (ofName (c :: rest)).rest = rest
    obtain ⟨taken, left⟩ := ofName_of_stops stops
    rw [step hc]
    exact ⟨congrArg (c :: ·) taken, left⟩
  | case4 c d text hc ih =>
    obtain ⟨taken, left⟩ := ih
    change (ofName (c :: ((ofName (d :: text)).taken ++ rest))).taken
      = c :: (ofName (d :: text)).taken
      ∧ (ofName (c :: ((ofName (d :: text)).taken ++ rest))).rest = rest
    rw [step hc]
    exact ⟨congrArg (c :: ·) taken, left⟩
  | case5 c d text hc hd ih =>
    obtain ⟨taken, left⟩ := ih
    change (ofName (c :: d :: ((ofName text).taken ++ rest))).taken = c :: d :: (ofName text).taken
      ∧ (ofName (c :: d :: ((ofName text).taken ++ rest))).rest = rest
    rw [ofName, if_neg hc, if_pos hd]
    exact ⟨congrArg (c :: d :: ·) taken, left⟩

private theorem stops_ofNumber (text : List Char) :
    (ofNumber text).rest.head?.any Char.isDigit = false := by
  by_cases pointed : ∃ d r, (ofClass Char.isDigit text).rest = '.' :: d :: r ∧ d.isDigit = true
  · obtain ⟨d, r, hr, hd⟩ := pointed
    rw [(ofNumber_of_point hr hd).2]
    exact stops_ofClass Char.isDigit (d :: r)
  · rw [ofNumber_of_whole fun d r hr ↦ Bool.not_eq_true _ ▸ fun hd ↦ pointed ⟨d, r, hr, hd⟩]
    exact stops_ofClass Char.isDigit text

/-- What continues a number is made of digits and a point. -/
theorem isDigit_of_mem_ofNumber {c : Char} {text : List Char} (h : c ∈ (ofNumber text).taken) :
    c.isDigit = true ∨ c = '.' := by
  have digit {text : List Char} (h : c ∈ (ofClass Char.isDigit text).taken) : c.isDigit = true :=
    List.all_eq_true.1 List.all_takeWhile c h
  by_cases pointed : ∃ d r, (ofClass Char.isDigit text).rest = '.' :: d :: r ∧ d.isDigit = true
  · obtain ⟨d, r, hr, hd⟩ := pointed
    rw [(ofNumber_of_point hr hd).1, List.mem_append, List.mem_cons] at h
    rcases h with h | h | h
    · exact .inl (digit h)
    · exact .inr h
    · exact .inl (digit h)
  · rw [ofNumber_of_whole fun d r hr ↦ Bool.not_eq_true _ ▸ fun hd ↦ pointed ⟨d, r, hr, hd⟩] at h
    exact .inl (digit h)

/-- The rest of a number before what is no part of one. -/
theorem ofNumber_append (text : List Char) (stops : rest.head?.any Char.isDigit = false)
    (point : rest.head? ≠ some '.') :
    (ofNumber ((ofNumber text).taken ++ rest)).taken = (ofNumber text).taken
      ∧ (ofNumber ((ofNumber text).taken ++ rest)).rest = rest := by
  by_cases pointed : ∃ d r, (ofClass Char.isDigit text).rest = '.' :: d :: r ∧ d.isDigit = true
  · obtain ⟨d, r, hr, hd⟩ := pointed
    have taken := (ofNumber_of_point hr hd).1
    obtain ⟨digits, hdigits⟩ : ∃ digits, (ofClass Char.isDigit (d :: r)).taken = d :: digits :=
      ⟨r.takeWhile Char.isDigit, by simp [ofClass, hd]⟩
    have fraction := ofClass_append (d :: r) stops
    rw [hdigits, List.cons_append] at fraction
    have whole := @ofClass_append ('.' :: d :: (digits ++ rest)) Char.isDigit text rfl
    have pieces : (ofNumber text).taken ++ rest
        = (ofClass Char.isDigit text).taken ++ '.' :: d :: (digits ++ rest) := by
      rw [taken, hdigits]
      simp
    rw [pieces]
    obtain ⟨taken', left'⟩ := ofNumber_of_point whole.2 hd
    exact ⟨by rw [taken', whole.1, fraction.1, taken, hdigits], left'.trans fraction.2⟩
  · have none : ofNumber text = ofClass Char.isDigit text :=
      ofNumber_of_whole fun d r hr ↦ Bool.not_eq_true _ ▸ fun hd ↦ pointed ⟨d, r, hr, hd⟩
    have whole := ofClass_append text stops
    rw [none, ofNumber_of_whole fun d r hr ↦ ?_]
    · exact whole
    · rw [whole.2] at hr
      exact absurd (congrArg List.head? hr) point

end Parts

/-! ## Literals -/

namespace Tail

variable {text rest : List Char}

private theorem starRun_append_congr {text rest rest' : List Char} (stops : rest.head? ≠ some '*')
    (stops' : rest'.head? ≠ some '*') : starRun (text ++ rest) = starRun (text ++ rest') := by
  have none {more : List Char} (h : more.head? ≠ some '*') : more.takeWhile (· = '*') = [] := by
    cases more with
    | nil => rfl
    | cons c more =>
      have other : c ≠ '*' := fun hc ↦ h (congrArg some hc)
      simp [other]
  rw [starRun, starRun, List.takeWhile_append, List.takeWhile_append, none stops, none stops']

/-- What follows a closed discretion does not go on with asterisks. -/
theorem head?_rest_ofDiscretion {multiline inRun : Bool}
    (h : (ofDiscretion multiline inRun text).closed = true) :
    (ofDiscretion multiline inRun text).rest.head? ≠ some '*' := by
  fun_induction ofDiscretion multiline inRun text with
  | case1 => simp [stop] at h
  | case2 inRun text hrun =>
    intro star
    have stops := Parts.stops_ofClass (· = '*') ('*' :: text)
    change (('*' :: text).dropWhile (· = '*')).head? = some '*' at star
    change (('*' :: text).dropWhile (· = '*')).head?.any (· = '*') = false at stops
    rw [star] at stops
    cases stops
  | case3 inRun text hrun ih => exact ih h
  | case4 inRun c text hc hstop => simp [stop] at h
  | case5 inRun c text hc hstop ih => exact ih h

/-- Whether the rest of a literal is closed after a body, with the given text behind it. -/
structure ClosesAfter {marker text : List Char} (t : Tail marker text) (body rest : List Char) :
    Prop where
  closed : t.closed = true
  body : t.body = body
  rest : t.rest = rest

private theorem ClosesAfter.cons {marker text body rest : List Char} {t : Tail marker text}
    (h : t.ClosesAfter body rest) (c : Char) : (t.cons c).ClosesAfter (c :: body) rest :=
  ⟨h.closed, congrArg (c :: ·) h.body, h.rest⟩

/-- A closed string ends where it does before everything. -/
theorem ofQuoted_append {escaped : Bool} (h : (ofQuoted escaped text).closed = true) :
    (ofQuoted escaped ((ofQuoted escaped text).body ++ (['"'] ++ rest))).ClosesAfter
      (ofQuoted escaped text).body rest := by
  have alone := ofQuoted_isAll h
  have more := ofQuoted_extends rest alone.closed
  rw [← List.append_assoc]
  exact ⟨more.closed.trans alone.closed, more.body.trans alone.body,
    by rw [more.rest, alone.rest]; rfl⟩

@[inherit_doc ofQuoted_append]
private theorem ofTripleQuoted_append (h : (ofTripleQuoted text).closed = true) :
    (ofTripleQuoted ((ofTripleQuoted text).body ++ (['"', '"', '"'] ++ rest))).ClosesAfter
      (ofTripleQuoted text).body rest := by
  have alone := ofTripleQuoted_isAll h
  have more := ofTripleQuoted_extends rest alone.closed
  rw [← List.append_assoc]
  exact ⟨more.closed.trans alone.closed, more.body.trans alone.body,
    by rw [more.rest, alone.rest]; rfl⟩

/-- The closing asterisks of a discretion before everything but an asterisk. -/
theorem ofDiscretion_marker (multiline : Bool) (stops : rest.head? ≠ some '*') :
    (ofDiscretion multiline false (discretionMarker multiline ++ rest)).ClosesAfter [] rest := by
  have all : ∀ c ∈ discretionMarker multiline, (decide (c = '*')) = true :=
    List.all_eq_true.1 (by cases multiline <;> rfl)
  have none : rest.head?.any (· = '*') = false := by
    cases rest with
    | nil => rfl
    | cons c rest => simpa using stops
  obtain ⟨run, left⟩ := span_append_of_stops all none
  have fits : starRun (discretionMarker multiline ++ rest) = (discretionMarker multiline).length :=
    congrArg List.length run
  obtain ⟨marker, shape⟩ : ∃ marker, discretionMarker multiline ++ rest = '*' :: marker := by
    cases multiline <;> exact ⟨_, rfl⟩
  rw [shape] at fits left ⊢
  rw [ofDiscretion, if_pos rfl, dif_pos ⟨rfl, fits⟩]
  exact ⟨rfl, rfl, left⟩

/-- A closed discretion ends where it does before everything but an asterisk. -/
theorem ofDiscretion_append {multiline inRun : Bool}
    (h : (ofDiscretion multiline inRun text).closed = true) (stops : rest.head? ≠ some '*') :
    (ofDiscretion multiline inRun
      ((ofDiscretion multiline inRun text).body ++
        (discretionMarker multiline ++ rest))).ClosesAfter
        (ofDiscretion multiline inRun text).body rest := by
  fun_induction ofDiscretion multiline inRun text with
  | case1 => simp [stop] at h
  | case2 inRun text hrun =>
    obtain ⟨rfl, -⟩ := hrun
    exact ofDiscretion_marker multiline stops
  | case3 inRun text hrun ih =>
    have whole := (ofDiscretion multiline true text).body_append_rest
    rw [if_pos (show (ofDiscretion multiline true text).closed = true from h)] at whole
    have ends : (ofDiscretion multiline true text).rest.head? ≠ some '*' :=
      head?_rest_ofDiscretion h
    have same := @starRun_append_congr
      ('*' :: ((ofDiscretion multiline true text).body ++ discretionMarker multiline)) _ _
        ends stops
    rw [List.cons_append, List.cons_append, whole, List.append_assoc] at same
    have step : ofDiscretion multiline inRun
        ('*' :: ((ofDiscretion multiline true text).body ++ (discretionMarker multiline ++ rest)))
        = (ofDiscretion multiline true
          ((ofDiscretion multiline true text).body ++ (discretionMarker multiline ++ rest))).cons
            '*' := by
      rw [ofDiscretion, if_pos rfl, dif_neg (by rw [← same]; exact hrun)]
    change (ofDiscretion multiline inRun ('*' :: ((ofDiscretion multiline true text).body
      ++ (discretionMarker multiline ++ rest)))).ClosesAfter ('*' :: _) rest
    rw [step]
    exact (ih h).cons '*'
  | case4 inRun c text hc hstop => simp [stop] at h
  | case5 inRun c text hc hstop ih =>
    have step (more : List Char) : ofDiscretion multiline inRun (c :: more)
        = (ofDiscretion multiline false more).cons c := by
      rw [ofDiscretion, if_neg hc, if_neg hstop]
    change (ofDiscretion multiline inRun (c :: ((ofDiscretion multiline false text).body
      ++ (discretionMarker multiline ++ rest)))).ClosesAfter (c :: _) rest
    rw [step]
    exact (ih h).cons c

end Tail

/-! ## Lexemes -/

namespace Cut

variable {c : Char} {text rest : List Char}

/-- A closed literal is the first lexeme before what it closes before. -/
theorem heads_ofTail {opener marker more : List Char} {hne : opener ≠ []} {t : Tail marker text}
    {t' : Tail marker more} {closed : List Char → Lexeme} {fault : LexFault}
    (isClosed : t.closed = true) (h : t'.ClosesAfter t.body rest) {d : Char} {text' : List Char}
    (whole : opener ++ more = d :: text')
    (same : (first d text').lexeme = (ofTail opener hne t' closed fault).lexeme
      ∧ (first d text').taken = (ofTail opener hne t' closed fault).taken) :
    (ofTail opener hne t closed fault).lexeme.Heads
    (ofTail opener hne t closed fault).taken rest := by
  have all := t'.body_append_rest
  simp only [ofTail, h.closed, h.body, h.rest, isClosed, if_true] at same all ⊢
  refine ⟨d, text', ?_, same⟩
  rw [← whole, ← all]
  simp only [List.append_assoc]

end Cut

/-! ## Where lexemes end -/

/-- Whether a lexeme that takes some characters ends before a text. -/
def Lexeme.EndsBefore (taken rest : List Char) : Lexeme → Prop
  | blank => rest.head?.any isBlank = false
  | comment => rest.head?.any (· ≠ '\n') = false
  | number => rest.head?.any Char.isDigit = false ∧ rest.head? ≠ some '.'
  | word reserved => Parts.StopsName rest
    ∧ reserved = if rest.head? = some '-' then none else Keyword.ofText? (String.ofList taken)
  | quoted triple body => triple = false → body = [] → rest.head? ≠ some '"'
  | discretion _ _ => rest.head? ≠ some '*'
  | lineBreak | symbol _ => True
  | faulty _ => False

/-- Whether a text may take the place of another one after a lexeme: it starts alike, or it ends the
line where blanks or a comment stood. -/
inductive Continues : List Char → List Char → Prop
  | nothing : Continues [] []
  | alike {c : Char} {rest rest' : List Char} (dash : c ≠ '-') (point : c ≠ '.') :
    Continues (c :: rest) (c :: rest')
  | arrow {rest rest' : List Char} : Continues ('-' :: '>' :: rest) ('-' :: '>' :: rest')
  | ends {c : Char} {rest : List Char} (h : isBlank c = true ∨ c = '#') : Continues (c :: rest) []
  | breaks {c : Char} {rest rest' : List Char} (h : isBlank c = true ∨ c = '#') :
    Continues (c :: rest) ('\n' :: rest')

namespace Continues

variable {rest rest' : List Char}

/-- What does not go on in one text does not go on in the other. -/
theorem any_head? (h : Continues rest rest') {p : Char → Bool} (feed : p '\n' = false)
    (stops : rest.head?.any p = false) : rest'.head?.any p = false := by
  cases h with
  | nothing | ends => rfl
  | alike | arrow => exact stops
  | breaks => exact feed

private theorem head?_eq_dash (h : Continues rest rest') :
    rest'.head? = some '-' ↔ rest.head? = some '-' := by
  cases h with
  | nothing | alike | arrow => exact .rfl
  | ends h | breaks h =>
    refine iff_of_false (by simp) fun dash ↦ ?_
    rw [Option.some.inj dash] at h
    exact absurd h (by decide)

private theorem head?_ne_point (h : Continues rest rest') : rest'.head? ≠ some '.' := by
  cases h with
  | alike _ point => exact fun same ↦ point (Option.some.inj same)
  | nothing | arrow | ends | breaks => simp

/-- What goes on with no name in one text goes on with none in the other. -/
theorem stopsName (h : Continues rest rest') (stops : Parts.StopsName rest) :
    Parts.StopsName rest' := by
  cases h with
  | nothing | ends => trivial
  | alike dash => exact ⟨stops.1, fun same ↦ absurd same dash⟩
  | arrow => exact ⟨rfl, fun _ ↦ rfl⟩
  | breaks => exact ⟨rfl, fun same ↦ absurd same (by decide)⟩

/-- Any lexeme but a comment ends before the one text as it does before the other. -/
theorem endsBefore (h : Continues rest rest') {x : Lexeme} {taken : List Char} (code : x ≠ .comment)
    (ends : x.EndsBefore taken rest) : x.EndsBefore taken rest' := by
  have other {c : Char} (quote : c = '"' ∨ c = '*') (ne : rest.head? ≠ some c) :
      rest'.head? ≠ some c := by
    have stops : rest.head?.any (· = c) = false := by
      cases hr : rest.head? with
      | none => rfl
      | some d => simpa [hr] using ne
    have feed : decide ('\n' = c) = false := by
      obtain rfl | rfl := quote <;> rfl
    intro same
    have stops' := h.any_head? (p := (· = c)) feed stops
    simp [same] at stops'
  cases x with
  | blank => exact h.any_head? rfl ends
  | comment => exact absurd rfl code
  | number => exact ⟨h.any_head? rfl ends.1, h.head?_ne_point⟩
  | word reserved => exact ⟨h.stopsName ends.1, by simp only [ends.2, h.head?_eq_dash]⟩
  | quoted triple body => exact fun single empty ↦ other (.inl rfl) (ends single empty)
  | discretion multiline body => exact other (.inr rfl) ends
  | lineBreak | symbol mark => trivial
  | faulty fault => exact ends.elim

end Continues

namespace Cut

variable {c : Char} {text rest : List Char}

/-- A blank starts a run of blanks. -/
theorem first_blank (blank : isBlank c = true) (text : List Char) :
    first c text = ofParts .blank c (.ofClass isBlank text) := by
  simp only [first, if_pos blank]

/-- The first character of a name starts a word, which is reserved unless a hyphen follows. -/
theorem first_name (blank : ¬isBlank c = true) (name : isNameStart c = true) (text : List Char) :
    first c text = ofParts (.word (if (Parts.ofName text).rest.head? = some '-' then none
      else Keyword.ofText? (String.ofList (c :: (Parts.ofName text).taken)))) c (.ofName text) := by
  simp only [first, if_neg blank, if_pos name]

/-- A digit starts a number. -/
theorem first_number (blank : ¬isBlank c = true) (name : ¬isNameStart c = true)
    (number : c.isDigit = true) (text : List Char) :
    first c text = ofParts .number c (.ofNumber text) := by
  simp only [first, if_neg blank, if_neg name, if_pos number]

/-- A quote opens a string in single quotes if no two quotes follow the string that it closes at
once. -/
theorem not_triple {t : Tail ['"'] text} (notTriple : ∀ left, text ≠ '"' :: '"' :: left)
    (closed : t.closed = true) (stops : t.body = [] → rest.head? ≠ some '"') (left : List Char) :
    t.body ++ (['"'] ++ rest) ≠ '"' :: '"' :: left := by
  intro more
  have whole := t.body_append_rest
  rw [if_pos closed] at whole
  match hb : t.body with
  | [] =>
    rw [hb] at more
    exact stops hb (congrArg List.head? (List.cons.inj more).2)
  | [d] =>
    rw [hb] at more whole
    obtain ⟨rfl, -⟩ := List.cons.inj more
    exact notTriple _ whole.symm
  | d :: e :: body =>
    rw [hb] at more whole
    obtain ⟨rfl, tail⟩ := List.cons.inj more
    obtain ⟨he, -⟩ := List.cons.inj tail
    rw [he] at whole
    exact notTriple _ whole.symm

private theorem not_three {t : Tail (discretionMarker false) text}
    (notTriple : ∀ left, text ≠ '*' :: left) (closed : t.closed = true) (left : List Char) :
    t.body ++ (discretionMarker false ++ rest) ≠ '*' :: left := by
  intro more
  have whole := t.body_append_rest
  rw [if_pos closed] at whole
  cases hb : t.body with
  | nil =>
    rw [hb] at whole
    exact notTriple _ whole.symm
  | cons d body =>
    rw [hb] at more whole
    obtain ⟨rfl, -⟩ := List.cons.inj more
    exact notTriple _ whole.symm

private theorem lexeme_ofTail (opener : List Char) {marker : List Char} {hne : opener ≠ []}
    {t : Tail marker text}
    {closed : List Char → Lexeme} {fault : LexFault} (isClosed : t.closed = true) :
    (ofTail opener hne t closed fault).lexeme = closed t.body := by
  simp [ofTail, isClosed]

/-- A literal that ends is closed. -/
theorem closed_of_endsBefore (opener : List Char) {marker taken : List Char} {hne : opener ≠ []}
    {t : Tail marker text}
    {closed : List Char → Lexeme} {fault : LexFault}
    (h : (ofTail opener hne t closed fault).lexeme.EndsBefore taken rest) : t.closed = true := by
  cases ht : t.closed with
  | true => rfl
  | false => simp [ofTail, ht, Lexeme.EndsBefore] at h

/-- The first lexeme of a text is the first before every text that it ends before. -/
theorem heads_first (h : (first c text).lexeme.EndsBefore (first c text).taken rest) :
    (first c text).lexeme.Heads (first c text).taken rest := by
  by_cases blank : isBlank c = true
  · rw [first_blank blank] at h ⊢
    refine ⟨c, _, rfl, ?_⟩
    rw [first_blank blank]
    exact ⟨rfl, congrArg (c :: ·) (Parts.ofClass_append text h).1⟩
  by_cases name : isNameStart c = true
  · rw [first_name blank name] at h ⊢
    obtain ⟨taken, left⟩ := Parts.ofName_append text h.1
    refine ⟨c, _, rfl, ?_⟩
    change (first c (_ ++ rest)).lexeme = _ ∧ (first c (_ ++ rest)).taken = _
    rw [first_name blank name]
    exact ⟨congrArg Lexeme.word (by rw [left, taken]; exact h.2.symm), congrArg (c :: ·) taken⟩
  by_cases number : c.isDigit = true
  · rw [first_number blank name number] at h ⊢
    refine ⟨c, _, rfl, ?_⟩
    change (first c (_ ++ rest)).lexeme = _ ∧ (first c (_ ++ rest)).taken = _
    rw [first_number blank name number]
    exact ⟨rfl, congrArg (c :: ·) (Parts.ofNumber_append text h.1 h.2).1⟩
  generalize hcut : first c text = cut at h ⊢
  simp only [first, if_neg blank, if_neg name, if_neg number] at hcut
  split at hcut <;> subst hcut
  · exact ⟨_, _, rfl, rfl, rfl⟩
  · exact ⟨_, _, rfl, rfl, rfl⟩
  · refine ⟨_, _, rfl, rfl, ?_⟩
    exact congrArg ('#' :: ·) (Parts.ofClass_append text h).1
  · next text =>
    have isClosed : (Tail.ofTripleQuoted text).closed = true :=
      closed_of_endsBefore ['"', '"', '"'] h
    exact heads_ofTail isClosed (Tail.ofTripleQuoted_append isClosed) rfl ⟨rfl, rfl⟩
  · next notTriple =>
    have isClosed := closed_of_endsBefore _ h
    rw [lexeme_ofTail _ isClosed] at h
    have one := not_triple notTriple isClosed (h rfl)
    exact heads_ofTail isClosed (Tail.ofQuoted_append isClosed) (List.singleton_append)
      (by rw [first_quote one]; exact ⟨rfl, rfl⟩)
  · next text =>
    have isClosed : (Tail.ofDiscretion true false text).closed = true :=
      closed_of_endsBefore ['*', '*', '*'] h
    rw [lexeme_ofTail ['*', '*', '*'] isClosed] at h
    exact heads_ofTail isClosed (Tail.ofDiscretion_append isClosed h) rfl ⟨rfl, rfl⟩
  · next text notTriple =>
    have isClosed : (Tail.ofDiscretion false false text).closed = true :=
      closed_of_endsBefore ['*', '*'] h
    rw [lexeme_ofTail ['*', '*'] isClosed] at h
    exact heads_ofTail isClosed (Tail.ofDiscretion_append isClosed h)
      (List.cons_append.trans (congrArg ('*' :: ·) List.singleton_append))
      (by rw [first_stars (not_three notTriple isClosed)]; exact ⟨rfl, rfl⟩)
  · exact ⟨_, _, rfl, rfl, rfl⟩
  · split at h
    · next mark hmark =>
      have single : first c rest = one (.symbol mark) c rest := by
        unfold Punctuation.ofChar? at hmark
        split at hmark <;> first | contradiction | (cases hmark; rfl)
      refine ⟨c, rest, rfl, ?_⟩
      rw [single]
      exact ⟨rfl, rfl⟩
    · exact h.elim

/-- A sound lexeme ends before what follows it, unless a number stands before a point. -/
theorem endsBefore_first (sound : ∀ fault, (first c text).lexeme ≠ .faulty fault)
    (point : (first c text).rest.head? ≠ some '.') :
    (first c text).lexeme.EndsBefore (first c text).taken (first c text).rest := by
  by_cases blank : isBlank c = true
  · rw [first_blank blank]
    exact Parts.stops_ofClass isBlank text
  by_cases name : isNameStart c = true
  · rw [first_name blank name]
    exact ⟨Parts.stops_ofName text, rfl⟩
  by_cases number : c.isDigit = true
  · rw [first_number blank name number] at point ⊢
    exact ⟨Parts.stops_ofNumber text, point⟩
  generalize hcut : first c text = cut at sound ⊢
  simp only [first, if_neg blank, if_neg name, if_neg number] at hcut
  split at hcut <;> subst hcut
  · trivial
  · trivial
  · exact Parts.stops_ofClass (· ≠ '\n') _
  · rw [lexeme_ofTail ['"', '"', '"'] (closed_of_ofTail sound)]
    exact fun single ↦ by cases single
  · next notTriple =>
    have isClosed := closed_of_ofTail sound
    rw [lexeme_ofTail _ isClosed]
    intro _ empty next
    have whole := (Tail.ofQuoted false text).body_append_rest
    rw [empty, if_pos isClosed] at whole
    obtain ⟨left, hleft⟩ := List.head?_eq_some_iff.1 next
    change (Tail.ofQuoted false text).rest = _ at hleft
    exact notTriple left (by rw [← whole, hleft]; rfl)
  · have isClosed := closed_of_ofTail sound
    rw [lexeme_ofTail ['*', '*', '*'] isClosed]
    exact Tail.head?_rest_ofDiscretion isClosed
  · have isClosed := closed_of_ofTail sound
    rw [lexeme_ofTail ['*', '*'] isClosed]
    exact Tail.head?_rest_ofDiscretion isClosed
  · trivial
  · split at sound
    · trivial
    · exact absurd rfl (sound _)

end Cut

end ProseLang
