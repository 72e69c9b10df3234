import ProseLang.Grammar.Fault
import ProseLang.Program.Leaf
import ProseLang.Text.Decimal
import ProseLang.Token.Kind

/-!
# Reading tokens one by one

A `Cursor` is a place in a stream of tokens, with the errors recorded on the way there. A `Parser`
moves a cursor forward and gives a value or an error; the cursor stays where an error arose, so
that `Cursor.synchronize` can go on from there.

`rounds` is the one loop of the grammar. It stops by itself when a round takes no token, so it
ends on every stream.
-/

namespace ProseLang

/-- A place in a stream of tokens (`Parser`). -/
structure Cursor where
  /-- The tokens ahead, up to the end of the file. -/
  rest : List Token
  /-- The token that marks the end of the file. -/
  final : Token
  /-- What the token before this place is. -/
  previous : Option TokenKind := none
  /-- The end of the last token taken that is not layout. -/
  lastEnd : Position := ⟨0, 0, 0⟩
  /-- The errors recorded so far. -/
  errors : List ParseError := []
  /-- The places of all invalid tokens of the stream. Errors there are known already. -/
  rejected : List Span := []

namespace Cursor

/-- The token at the cursor (`Parser::current`). -/
def current (c : Cursor) : Token := c.rest.headD c.final

/-- The token after the one at the cursor (`Parser::peek_kind`). -/
def next (c : Cursor) : Token := c.rest.tail.headD c.final

/-- The cursor one token further on; at the end of the file it stays (`Parser::advance`). -/
def advance (c : Cursor) : Cursor :=
  match c.rest with
  | [] => c
  | t :: rest =>
    { c with rest, previous := some t.kind,
             lastEnd := if t.kind.isLayout then c.lastEnd else t.span.stop }

/-- The cursor some tokens further on. -/
def skip (c : Cursor) : Nat → Cursor
  | 0 => c
  | n + 1 => c.advance.skip n

/-- Records an error, unless it stands at an invalid token (`Parser::report`). -/
def report (c : Cursor) (e : ParseError) : Cursor :=
  if c.rejected.contains e.span then c else { c with errors := c.errors ++ [e] }

/-- How many tokens belong to a statement that failed, `depth` blocks below its own
(`Parser::synchronize`). The line ends it, and so does the end of the block around it; a block of
its own is part of it. -/
def failedLength (depth : Nat) : List Token → Nat
  | [] => 0
  | t :: rest =>
    match t.kind with
    | .newline =>
      if depth = 0 && !(rest.head?.map Token.kind == some .indent) then 1
      else failedLength depth rest + 1
    | .indent => failedLength (depth + 1) rest + 1
    | .dedent =>
      match depth with
      | 0 => 0
      | 1 => 1
      | depth + 2 => failedLength (depth + 1) rest + 1
    | _ => failedLength depth rest + 1

/-- Goes on after a statement that failed (`Parser::synchronize`). -/
def synchronize (c : Cursor) : Cursor := c.skip (failedLength 0 c.rest)

/-- Records an error and goes on after the statement that failed. -/
def recover (c : Cursor) (e : ParseError) : Cursor := (c.report e).synchronize

/-- Whether a kind of token comes next once comments on lines of their own are passed over
(`Parser::check_past_comments`). -/
def comesNext (c : Cursor) (kind : TokenKind) : Bool :=
  ((c.rest.find? (!·.kind.isComment)).map Token.kind).any (· = kind)

/-- The cursor after any comments (`Parser::skip_comments`). -/
def skipComments (c : Cursor) : Cursor :=
  c.skip (c.rest.takeWhile (·.kind.isComment)).length

/-- The cursor after any ends of lines (`Parser::skip_newlines`). -/
def skipNewlines (c : Cursor) : Cursor :=
  c.skip (c.rest.takeWhile (·.kind = .newline)).length

/-- Whether a line ends here and a block opens (`Parser::at_indented_block`). -/
def atBlock (c : Cursor) : Bool := c.current.kind = .newline && c.next.kind = .indent

/-- Taking tokens one after the other leaves the rest of them. -/
theorem rest_skip (c : Cursor) (n : Nat) : (c.skip n).rest = c.rest.drop n := by
  induction n generalizing c with
  | zero => rfl
  | succ n ih =>
    rw [skip, ih]
    unfold advance
    split <;> simp_all

/-- Recording an error moves nothing. -/
@[simp] theorem rest_report (c : Cursor) (e : ParseError) : (c.report e).rest = c.rest := by
  unfold report
  split <;> rfl

end Cursor

/-- Reads tokens at a cursor (`ParseResult`). -/
abbrev Parser := ExceptT ParseError (StateM Cursor)

namespace Parser

/-- The cursor. -/
def cursor : Parser Cursor := get

/-- What the token at the cursor is (`Parser::current_kind`). -/
def peek : Parser TokenKind := do return (← cursor).current.kind

/-- What the token after the one at the cursor is (`Parser::peek_kind`). -/
def peekNext : Parser TokenKind := do return (← cursor).next.kind

/-- Whether the token at the cursor is of the given kind (`Parser::check`). -/
def at? (kind : TokenKind) : Parser Bool := do return (← peek) = kind

/-- Takes the token at the cursor (`Parser::advance`). -/
def take : Parser Token := do
  let c ← cursor
  set c.advance
  return c.current

/-- Moves the cursor. -/
def move (f : Cursor → Cursor) : Parser Unit := modify f

/-- Fails for want of something (`Parser::unexpected`). -/
def unexpected {α : Type} (expected : String) : Parser α := do
  let t := (← cursor).current
  throw ⟨.unexpected expected t.kind.describe, t.span⟩

/-- Fails for want of an indented block. -/
def missingBlock {α : Type} (construct : Construct) : Parser α := do
  throw ⟨.missingBlock construct, .point (← cursor).lastEnd⟩

/-- Takes a token of the given kind if it is there (`Parser::eat`). -/
def take? (kind : TokenKind) : Parser (Option Token) := do
  if ← at? kind then some <$> take else return none

/-- Takes a token of the given kind (`Parser::expect`). -/
def expect (kind : TokenKind) : Parser Token := do
  match ← take? kind with
  | some t => return t
  | none => unexpected kind.describe

/-- Takes a reserved word and gives its place. -/
def keyword (word : Keyword) : Parser Span := do return (← expect (.keyword word)).span

/-- Takes an operator or delimiter. -/
def symbol (mark : Punctuation) : Parser Unit := do let _ ← expect (.symbol mark)

/-- Takes an operator or delimiter if it is there. -/
def symbol? (mark : Punctuation) : Parser Bool := do return (← take? (.symbol mark)).isSome

/-- Whether an operator or delimiter is at the cursor. -/
def atSymbol (mark : Punctuation) : Parser Bool := at? (.symbol mark)

/-- Takes a name (`Parser::expect_ident`). -/
def name (role : String) : Parser Ident := do
  match ← peek with
  | .identifier text => return ⟨text, (← take).span⟩
  | _ => unexpected role

/-- Takes a string (`Parser::expect_string`). -/
def string (role : String) : Parser StringLit := do
  match ← peek with
  | .string literal => return .ofLiteral literal (← take).span
  | _ => unexpected role

/-- Takes a discretion (`Parser::expect_discretion`). -/
def discretion (role : String) : Parser Discretion := do
  match ← peek with
  | .discretion d => return ⟨d.text, d.multiline, d.raw, (← take).span⟩
  | _ => unexpected role

/-- The span from the start of `first` to the end of the last token taken (`Parser::span_from`). -/
def spanFrom (first : Span) : Parser Span := do return ⟨first.start, (← cursor).lastEnd⟩

/-- The greatest number that counts something in a program: the greatest of 32 bits. -/
def maxCount : Nat := 0xFFFFFFFF

/-- The number that digits stand for; a fraction and a number above `maxCount` count nothing
(`number_to_count`). -/
def countOf (digits : Located String) : Except ParseError (Located Nat) :=
  match (wholeNumber? digits.val.toList).filter (· ≤ maxCount) with
  | some n => .ok ⟨n, digits.span⟩
  | none => .error ⟨.notWholeNumber digits.val, digits.span⟩

/-- Takes a whole number (`Parser::expect_count`). -/
def count (role : String) : Parser (Located Nat) := do
  match ← peek with
  | .number digits => countOf ⟨digits, (← take).span⟩
  | _ => unexpected role

end Parser

/-- How a round of a loop ends. -/
inductive RoundEnd
  | again
  | stop
  | fail (e : ParseError)

/-- Gathers what the rounds of a loop give until one does not end in `again`. What was gathered is
kept when a round fails. -/
def rounds {α : Type} (round : StateM Cursor (List α × RoundEnd)) (c : Cursor) :
    (List α × Option ParseError) × Cursor :=
  match round c with
  | ((xs, .stop), c') => ((xs, none), c')
  | ((xs, .fail e), c') => ((xs, some e), c')
  | ((xs, .again), c') =>
    if c'.rest.length < c.rest.length then
      let ((ys, e), c'') := rounds round c'
      ((xs ++ ys, e), c'')
    else ((xs, none), c')
termination_by c.rest.length

namespace Parser

/-- Repeats a parser while it gives something and says to go on. -/
def many {α : Type} (round : Parser (Option α × Bool)) : Parser (List α) := fun c ↦
  let step : StateM Cursor (List α × RoundEnd) := do
    match ← round.run with
    | .ok (x, goOn) => return (x.toList, if goOn then .again else .stop)
    | .error e => return ([], .fail e)
  match rounds step c with
  | ((xs, none), c') => (.ok xs, c')
  | ((_, some e), c') => (.error e, c')

/-- Repeats a parser while a condition holds. -/
def manyWhile {α : Type} (continues : Parser Bool) (item : Parser α) : Parser (List α) :=
  many do
    if ← continues then return (some (← item), true) else return (none, false)

/-- Items separated by commas up to a closing delimiter; a comma may follow the last. -/
def commaList {α : Type} (close : Punctuation) (item : Parser α) : Parser (List α) := do
  let items ← many do
    if ← atSymbol close then return (none, false)
    let x ← item
    return (some x, ← symbol? .comma)
  symbol close
  return items

/-- Items in parentheses, or none without parentheses. -/
def parenthesized? {α : Type} (item : Parser α) : Parser (List α) := do
  if ← symbol? .leftParen then commaList .rightParen item else return []

end Parser

end ProseLang
