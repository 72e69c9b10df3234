import ProseLang.Text.Position

/-!
# String literals

The body of a string literal is a sequence of pieces: plain characters, escapes, and interpolated
names in braces. `Piece.read` cuts a body into pieces, and everything a literal says (its value,
its segments, its escapes) is read off them. Main statements: reading loses nothing
(`source_read`), and the pieces that `Piece.spell` gives for a text read back as that text
(`value_read_spell`).
-/

namespace ProseLang

/-- Whether a character may start a name. -/
def isNameStart (c : Char) : Bool := c.isAlpha || c = '_'

/-- Whether a character may stand inside a name, hyphens aside. -/
def isNameChar (c : Char) : Bool := c.isAlphanum || c = '_'

/-- One unit of the body of a string literal. -/
inductive Piece
  /-- A character that stands for itself. -/
  | plain (c : Char)
  /-- A backslash and the character after it. -/
  | escape (c : Char)
  /-- A name in braces. -/
  | hole (name : List Char)
deriving DecidableEq, Repr

/-- The character that an escape stands for; an unknown escape has none (`decode_string`). -/
def unescape? : Char → Option Char
  | 'n' => some '\n'
  | 't' => some '\t'
  | '"' => some '"'
  | '\\' => some '\\'
  | '\x7b' => some '\x7b'
  | '\x7d' => some '\x7d'
  | _ => none

/-- Whether the text between two braces is an interpolated name. -/
def isHoleName : List Char → Bool
  | [] => false
  | c :: name => isNameStart c && name.all fun d ↦ isNameChar d || d = '-'

/-- The name and the rest of a body that follows an opening brace, if the text up to the next
closing brace is a name (`interpolation_name`). -/
def holeName? (body : List Char) : Option (List Char × List Char) :=
  let name := body.takeWhile (· ≠ '\x7d')
  match body.dropWhile (· ≠ '\x7d') with
  | _ :: rest => if isHoleName name then some (name, rest) else none
  | [] => none

private theorem eq_of_dropWhile_ne {x d : Char} {l r : List Char}
    (h : l.dropWhile (· ≠ x) = d :: r) : d = x := by
  induction l with
  | nil => simp at h
  | cons c l ih =>
    by_cases hc : c = x
    · simp [hc] at h
      exact h.1.symm
    · exact ih (by simpa [hc] using h)

private theorem holeName?_eq {body name rest : List Char} (h : holeName? body = some (name, rest)) :
    body = name ++ '\x7d' :: rest := by
  simp only [holeName?] at h
  split at h
  · next d r hd =>
    split at h
    · simp only [Option.some.injEq, Prod.mk.injEq] at h
      obtain ⟨rfl, rfl⟩ := h
      rw [← eq_of_dropWhile_ne hd, ← hd, eq_of_dropWhile_ne hd, List.takeWhile_append_dropWhile]
    · simp at h
  · simp at h

private theorem length_lt_of_holeName? {body name rest : List Char}
    (h : holeName? body = some (name, rest)) : rest.length < body.length := by
  rw [holeName?_eq h]
  simp only [List.length_append, List.length_cons]
  omega

namespace Piece

/-- A piece as it is written. -/
def source : Piece → List Char
  | plain c => [c]
  | escape c => ['\\', c]
  | hole name => '\x7b' :: name ++ ['\x7d']

/-- What a piece contributes to the value of its literal. An unknown escape and an interpolated
name contribute themselves. -/
def value : Piece → List Char
  | plain c => [c]
  | escape c => ((unescape? c).map ([·])).getD ['\\', c]
  | hole name => '\x7b' :: name ++ ['\x7d']

/-- The pieces of a body (`decode_string`). A backslash at the very end stands for itself. -/
def read (body : List Char) : List Piece :=
  match body with
  | [] => []
  | '\\' :: c :: rest => escape c :: read rest
  | c :: rest =>
    if c = '\x7b' then
      match h : holeName? rest with
      | some (name, rest') =>
        have := length_lt_of_holeName? h
        hole name :: read rest'
      | none => plain c :: read rest
    else plain c :: read rest
termination_by body.length

/-- The piece that stands for a given character whatever surrounds it. -/
def spell (c : Char) : Piece :=
  match c with
  | '"' => escape '"'
  | '\\' => escape '\\'
  | '\n' => escape 'n'
  | '\t' => escape 't'
  | '\x7b' => escape '\x7b'
  | '\x7d' => escape '\x7d'
  | c => plain c

/-- Reading a body loses nothing. -/
theorem source_read (body : List Char) : (read body).flatMap source = body := by
  fun_induction read body with
  | case1 => rfl
  | case2 c rest ih => simp [source, ih]
  | case3 rest name rest' h _ _ ih => simp [source, ih, holeName?_eq h]
  | case4 rest h _ ih => simp [source, ih]
  | case5 c rest _ hc ih => simp [source, ih]

/-- The piece that spells a character has that character as its value. -/
@[simp] theorem value_spell (c : Char) : (spell c).value = [c] := by
  unfold spell
  split <;> simp [value, unescape?]

/-- The pieces that spell a text read back one by one. -/
theorem read_spell (text : List Char) :
    read ((text.map spell).flatMap source) = text.map spell := by
  induction text with
  | nil => simp [read]
  | cons c text ih =>
    simp only [List.map_cons, List.flatMap_cons]
    by_cases h : ∃ d, spell c = escape d
    · obtain ⟨d, hd⟩ := h
      rw [hd]
      simp [source, read, ih]
    · have hp : spell c = plain c ∧ c ≠ '\\' ∧ c ≠ '\x7b' := by
        unfold spell at h ⊢
        split at h <;> simp_all
      obtain ⟨hs, hb, ho⟩ := hp
      have step : ∀ body, read (c :: body) = plain c :: read body := by
        intro body
        rw [read]
        · simp [ho]
        · intro d rest hc
          exact absurd hc hb
      simp [hs, source, step, ih]

/-- Reading what spells a text gives the text as value. -/
theorem value_read_spell (text : List Char) :
    (read ((text.map spell).flatMap source)).flatMap value = text := by
  rw [read_spell]
  induction text with
  | nil => rfl
  | cons c text ih => simp [ih]

/-- The spans of the pieces of a body that starts at `p`. -/
def locate (p : Position) : List Piece → List (Piece × Span)
  | [] => []
  | x :: xs => (x, ⟨p, p.after x.source⟩) :: locate (p.after x.source) xs

end Piece

/-- A stretch of literal text or an interpolated name (`StringSegment`). -/
inductive Segment
  | text (text : String)
  | hole (name : String) (span : Span)
deriving DecidableEq, Repr

namespace Segment

/-- Puts text in front of segments; neighbouring text is one segment. -/
def consText (text : List Char) : List Segment → List Segment
  | .text rest :: segments => .text (String.ofList text ++ rest) :: segments
  | segments => .text (String.ofList text) :: segments

/-- The segments that located pieces make up. -/
def ofPieces : List (Piece × Span) → List Segment
  | [] => []
  | (.hole name, span) :: pieces => hole (String.ofList name) span :: ofPieces pieces
  | (piece, _) :: pieces => consText piece.value (ofPieces pieces)

/-- The same segment with another reading of its place. -/
def mapSpan (f : Span → Span) : Segment → Segment
  | .text t => .text t
  | hole name span => hole name (f span)

end Segment

/-- An escape as written, with the character it stands for (`EscapeSequence`). -/
structure Escape where
  sequence : String
  decoded : Option Char
  span : Span
deriving DecidableEq, Repr

/-- The escapes among located pieces. -/
def Escape.ofPieces (pieces : List (Piece × Span)) : List Escape :=
  pieces.filterMap fun
    | (.escape c, span) => some ⟨String.ofList ['\\', c], unescape? c, span⟩
    | _ => none

/-- A string literal (`StringLiteral`). -/
structure StringLiteral where
  /-- The literal as written, quotes included. -/
  raw : String
  /-- The text it stands for; an interpolated name keeps its braces. -/
  value : String
  segments : List Segment
  escapes : List Escape
  /-- Whether the quotes are triple. -/
  triple : Bool
deriving DecidableEq, Repr

namespace StringLiteral

/-- The quotes around a body. -/
def quotes (triple : Bool) : List Char := List.replicate (if triple then 3 else 1) '"'

/-- The literal with the given body whose first quote stands at `start` (`decode_string`). -/
def decode (start : Position) (triple : Bool) (body : List Char) : StringLiteral :=
  let pieces := Piece.locate (start.after (quotes triple)) (Piece.read body)
  { raw := String.ofList (quotes triple ++ body ++ quotes triple)
    value := String.ofList ((Piece.read body).flatMap Piece.value)
    segments := Segment.ofPieces pieces
    escapes := Escape.ofPieces pieces
    triple }

/-- The body of the single-line literal that stands for a text. -/
def spelledBody (text : List Char) : List Char := (text.map Piece.spell).flatMap Piece.source

/-- The single-line literal that stands for a text; its parts know their byte offsets only
(`StringLiteral::from_text`). -/
def ofText (text : String) : StringLiteral :=
  let literal := decode ⟨0, 0, 0⟩ false (spelledBody text.toList)
  { literal with
    segments := literal.segments.map (Segment.mapSpan Span.offsetsOnly)
    escapes := literal.escapes.map fun e ↦ { e with span := e.span.offsetsOnly } }

/-- The interpolated names in order (`StringLiteral::interpolations`). -/
def holes (literal : StringLiteral) : List (String × Span) :=
  literal.segments.filterMap fun
    | .hole name span => some (name, span)
    | .text _ => none

/-- The escapes that stand for no character (`StringLiteral::invalid_escapes`). -/
def invalidEscapes (literal : StringLiteral) : List Escape :=
  literal.escapes.filter (·.decoded.isNone)

/-- A literal made from a text has that text as its value. -/
theorem value_ofText (text : String) : (ofText text).value = text := by
  simp [ofText, decode, spelledBody, Piece.value_read_spell]

end StringLiteral

/-- Free text between double or triple asterisks, kept as it is (`DiscretionLiteral`). -/
structure DiscretionLiteral where
  text : String
  /-- Whether the markers are triple, so that the text may span lines. -/
  multiline : Bool
  /-- The literal as written, markers included. -/
  raw : String
deriving DecidableEq, Repr

/-- The marker at either end of a discretion. -/
def discretionMarker (multiline : Bool) : List Char :=
  List.replicate (if multiline then 3 else 2) '*'

/-- The discretion with the given text (`lex_discretion`). -/
def DiscretionLiteral.ofBody (multiline : Bool) (body : List Char) : DiscretionLiteral where
  text := String.ofList body
  multiline
  raw := String.ofList (discretionMarker multiline ++ body ++ discretionMarker multiline)

end ProseLang
