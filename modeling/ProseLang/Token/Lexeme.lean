import ProseLang.Token.Kind

/-!
# Lexemes

A source text falls apart into lexemes: blanks, line breaks, comments, tokens, and stretches that
are no token. `Cut.first` takes the longest possible lexeme from the front of a text; a cut
carries the proof that what it took and what it left make up the text, so the lexemes of a text
concatenate to it (`text_lexemes`).
-/

namespace ProseLang

/-- What a stretch of source text is (`TokenKind`). -/
inductive Lexeme
  /-- Spaces, tabs and form feeds. -/
  | blank
  | lineBreak
  | comment
  | number
  /-- A name, or the given reserved word. -/
  | word (reserved : Option Keyword)
  | symbol (mark : Punctuation)
  | quoted (triple : Bool) (body : List Char)
  | discretion (multiline : Bool) (body : List Char)
  | faulty (fault : LexFault)
deriving DecidableEq, Repr

/-- Whether a character separates tokens within a line. -/
def isBlank (c : Char) : Bool := c = ' ' || c = '\t' || c = '\x0c'

/-- A text in two parts. -/
structure Parts (text : List Char) where
  taken : List Char
  rest : List Char
  taken_append_rest : taken ++ rest = text

namespace Parts

/-- All of the text on the right. -/
def none (text : List Char) : Parts text := ⟨[], text, rfl⟩

/-- One more character on the left. -/
def cons (c : Char) {text : List Char} (p : Parts text) : Parts (c :: text) :=
  ⟨c :: p.taken, p.rest, by simp [p.taken_append_rest]⟩

/-- On the left, as many characters of a class as the text starts with. -/
def ofClass (p : Char → Bool) (text : List Char) : Parts text :=
  ⟨text.takeWhile p, text.dropWhile p, List.takeWhile_append_dropWhile⟩

/-- On the left, what continues a name: name characters, and hyphens between two of them
(`TokenKind::Identifier`). -/
def ofName : (text : List Char) → Parts text
  | [] => none []
  | [c] => if isNameChar c then (none []).cons c else none [c]
  | c :: d :: text =>
    if isNameChar c then (ofName (d :: text)).cons c
    else if c = '-' && isNameChar d then ((ofName text).cons d).cons c
    else none (c :: d :: text)

/-- On the left, what continues a number: digits, and a point between two of them
(`TokenKind::Number`). -/
def ofNumber (text : List Char) : Parts text :=
  let whole := ofClass Char.isDigit text
  match h : whole.rest with
  | '.' :: d :: rest =>
    if d.isDigit then
      let fraction := ofClass Char.isDigit (d :: rest)
      ⟨whole.taken ++ '.' :: fraction.taken, fraction.rest, by
        rw [List.append_assoc, List.cons_append, fraction.taken_append_rest, ← h,
          whole.taken_append_rest]⟩
    else whole
  | _ => whole

end Parts

/-- The rest of a literal after its opening marker: its body, whether the closing marker was found
after it, and the text that follows. -/
structure Tail (marker text : List Char) where
  closed : Bool
  body : List Char
  rest : List Char
  body_append_rest : body ++ (if closed then marker else []) ++ rest = text

namespace Tail

/-- A literal that stops short of its closing marker. -/
def stop {marker : List Char} (text : List Char) : Tail marker text := ⟨false, [], text, by simp⟩

/-- A literal whose closing marker comes next. -/
def close (marker rest : List Char) : Tail marker (marker ++ rest) := ⟨true, [], rest, by simp⟩

/-- One more character in front of the body. -/
def cons (c : Char) {marker text : List Char} (t : Tail marker text) : Tail marker (c :: text) :=
  ⟨t.closed, c :: t.body, t.rest, by
    have := t.body_append_rest
    simp only [List.cons_append]
    rw [this]⟩

/-- The rest of a string in single quotes: it ends at the first quote that no backslash escapes, and
stops before a line break (`lex_string`). -/
def ofQuoted (escaped : Bool) : (text : List Char) → Tail ['"'] text
  | [] => stop []
  | c :: text =>
    if c = '\n' || c = '\r' then stop (c :: text)
    else if h : c = '"' ∧ escaped = false then
      h.1 ▸ close ['"'] text
    else (ofQuoted (c = '\\' && !escaped) text).cons c

/-- The rest of a string in triple quotes: it ends at the first three quotes in a row of which no
backslash escapes the first (`lex_triple_string`). -/
def ofTripleQuoted : (text : List Char) → Tail ['"', '"', '"'] text
  | [] => stop []
  | '\\' :: c :: text => ((ofTripleQuoted text).cons c).cons '\\'
  | '"' :: '"' :: '"' :: text => close ['"', '"', '"'] text
  | c :: text => (ofTripleQuoted text).cons c

/-- The number of asterisks that a text starts with. -/
def starRun (text : List Char) : Nat := (text.takeWhile (· = '*')).length

private theorem replicate_starRun_append (text : List Char) :
    List.replicate (starRun text) '*' ++ text.dropWhile (· = '*') = text := by
  have h : text.takeWhile (· = '*') = List.replicate (starRun text) '*' :=
    List.eq_replicate_iff.2 ⟨rfl, fun c hc ↦ by
      have := List.all_eq_true.1 (List.all_takeWhile (l := text) (p := (· = '*'))) c hc
      simpa using this⟩
  rw [← h, List.takeWhile_append_dropWhile]

/-- The rest of a discretion: it ends at the first run of exactly as many asterisks as open it, and
one with two asterisks stops before a line feed (`lex_discretion`). `inRun` tells that an asterisk
comes just before. -/
def ofDiscretion (multiline inRun : Bool) :
    (text : List Char) → Tail (discretionMarker multiline) text
  | [] => stop []
  | c :: text =>
    if c = '*' then
      if h : inRun = false ∧ starRun (c :: text) = (discretionMarker multiline).length then
        ⟨true, [], (c :: text).dropWhile (· = '*'), by
          have hm : discretionMarker multiline = List.replicate (starRun (c :: text)) '*' := by
            rw [h.2, discretionMarker, List.length_replicate]
          rw [hm]
          exact replicate_starRun_append _⟩
      else (ofDiscretion multiline true text).cons c
    else if c = '\n' && !multiline then stop (c :: text)
    else (ofDiscretion multiline false text).cons c

end Tail

/-- The first lexeme of a text with the characters it takes, at least one, and those it leaves. -/
structure Cut (text : List Char) where
  lexeme : Lexeme
  taken : List Char
  rest : List Char
  taken_append_rest : taken ++ rest = text
  taken_ne_nil : taken ≠ []

namespace Cut

/-- A cut leaves less than the text. -/
theorem rest_length_lt {text : List Char} (cut : Cut text) : cut.rest.length < text.length := by
  have h := congrArg List.length cut.taken_append_rest
  have := List.length_pos_iff.2 cut.taken_ne_nil
  simp only [List.length_append] at h
  omega

/-- A lexeme of one character. -/
def one (lexeme : Lexeme) (c : Char) (text : List Char) : Cut (c :: text) :=
  ⟨lexeme, [c], text, rfl, by simp⟩

/-- A lexeme of a first character and those that continue it. -/
def ofParts (lexeme : Lexeme) (c : Char) {text : List Char} (p : Parts text) : Cut (c :: text) :=
  ⟨lexeme, c :: p.taken, p.rest, by simp [p.taken_append_rest], by simp⟩

/-- A literal after its opening marker. -/
def ofTail (opener : List Char) (h : opener ≠ []) {marker text : List Char}
    (t : Tail marker text) (closed : List Char → Lexeme) (fault : LexFault) :
    Cut (opener ++ text) :=
  ⟨if t.closed then closed t.body else .faulty fault,
    opener ++ t.body ++ (if t.closed then marker else []), t.rest, by
      have := t.body_append_rest
      simp only [List.append_assoc] at this ⊢
      rw [this], by simp [h]⟩

/-- The first lexeme of a text (`Lexer`). A reserved word just before a hyphen that continues no
name is read as a name. -/
def first (c : Char) (text : List Char) : Cut (c :: text) :=
  if isBlank c then ofParts .blank c (.ofClass isBlank text)
  else if isNameStart c then
    let name := Parts.ofName text
    let reserved :=
      if name.rest.head? = some '-' then none else Keyword.ofText? (String.ofList (c :: name.taken))
    ofParts (.word reserved) c name
  else if c.isDigit then ofParts .number c (.ofNumber text)
  else
    match c, text with
    | '\n', text => one .lineBreak '\n' text
    | '\r', '\n' :: text => ⟨.lineBreak, ['\r', '\n'], text, rfl, by simp⟩
    | '#', text => ofParts .comment '#' (.ofClass (· ≠ '\n') text)
    | '"', '"' :: '"' :: text =>
      ofTail ['"', '"', '"'] (by simp) (Tail.ofTripleQuoted text) (.quoted true) .unterminatedString
    | '"', text =>
      ofTail ['"'] (by simp) (Tail.ofQuoted false text) (.quoted false) .unterminatedString
    | '*', '*' :: '*' :: text =>
      ofTail ['*', '*', '*'] (by simp) (Tail.ofDiscretion true false text) (.discretion true)
        (.unterminatedDiscretion true)
    | '*', '*' :: text =>
      ofTail ['*', '*'] (by simp) (Tail.ofDiscretion false false text) (.discretion false)
        (.unterminatedDiscretion false)
    | '-', '>' :: text => ⟨.symbol .arrow, ['-', '>'], text, rfl, by simp⟩
    | c, text =>
      match Punctuation.ofChar? c with
      | some mark => one (.symbol mark) c text
      | none => one (.faulty (.unexpectedCharacter c)) c text

end Cut

/-- A lexeme with its characters and place. -/
structure LexemeAt where
  lexeme : Lexeme
  text : List Char
  span : Span
deriving DecidableEq, Repr

/-- The lexemes of a text that starts at `p`. -/
def lexemes (p : Position) (text : List Char) : List LexemeAt :=
  match text with
  | [] => []
  | c :: text =>
    let cut := Cut.first c text
    ⟨cut.lexeme, cut.taken, ⟨p, p.after cut.taken⟩⟩ :: lexemes (p.after cut.taken) cut.rest
termination_by text.length
decreasing_by exact cut.rest_length_lt

/-- The lexemes of a text concatenate to it. -/
theorem text_lexemes (p : Position) (text : List Char) :
    (lexemes p text).flatMap LexemeAt.text = text := by
  fun_induction lexemes p text with
  | case1 => rfl
  | case2 p c text cut ih => simp [ih, cut.taken_append_rest]

/-- No lexeme is empty. -/
theorem text_ne_nil_of_mem_lexemes {p : Position} {text : List Char} {l : LexemeAt}
    (h : l ∈ lexemes p text) : l.text ≠ [] := by
  fun_induction lexemes p text with
  | case1 => simp at h
  | case2 p c text cut ih =>
    rcases List.mem_cons.1 h with rfl | h
    · exact cut.taken_ne_nil
    · exact ih h

end ProseLang
