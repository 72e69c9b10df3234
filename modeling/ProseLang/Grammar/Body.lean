import ProseLang.Grammar.Cursor
import ProseLang.Program.Tree

/-!
# Bodies of statements

Constructs nest, so the parser of each construct is written over the parsers of what is nested in
it: `Nested`. Statements stand one to a line; a statement that fails is recorded as an error, and
reading goes on with the next one (`statements`).

A bar continues a value as a pipe, except in a body on the same line as the colon of a pipe
operation, where it goes on with the pipe around it. The flag `pipes` says which.
-/

namespace ProseLang

/-- Reads one statement, or several joined by arrows. What was read before an error is kept. -/
abbrev StatementParser := StateM Cursor (List Statement × Option ParseError)

/-- The parsers of what is nested in a construct. -/
structure Nested where
  value (pipes : Bool) : Parser Expr
  statement (pipes : Bool) : StatementParser
  /-- An indented group of properties. -/
  properties (pipes : Bool) : Parser (List Property)

namespace Parser

/-- Takes the end of a statement: the end of the line, or nothing after a comment or a block and
before the end of a block or of the file (`Parser::end_statement`). -/
def endStatement : Parser Unit := do
  match (← cursor).previous with
  | some .dedent => return
  | some (.comment _) => return
  | _ =>
    match ← peek with
    | .newline => let _ ← take
    | .dedent | .endOfFile => return
    | _ => unexpected "end of line"

/-- Runs a parser after which a statement ends (`Parser::parse_statements`). Records its error, if
any, and goes on after the statement. -/
def recovering {α : Type} (p : Parser α) : StateM Cursor (Option α) := do
  match ← p.run with
  | .ok x => return some x
  | .error e =>
    modify (·.recover e)
    return none

/-- One round of reading statements (`Parser::parse_statements`). -/
def statementRound (statement : StatementParser) (inBlock : Bool) :
    StateM Cursor (List Statement × RoundEnd) := do
  modify Cursor.skipNewlines
  let t := (← get).current
  match t.kind with
  | .endOfFile => return ([], .stop)
  | .dedent =>
    if inBlock then return ([], .stop)
    modify Cursor.advance
    return ([], .again)
  | .indent =>
    modify (·.recover ⟨.unexpectedIndent, t.span⟩)
    return ([], .again)
  | _ =>
    let (read, error) ← statement
    match error with
    | some e => modify (·.recover e)
    | none => let _ ← recovering endStatement
    return (read, .again)

/-- Statements up to the end of the file or, in a block, up to the end of the block
(`Parser::parse_statements`). -/
def statements (statement : StatementParser) (inBlock : Bool) : StateM Cursor (List Statement) :=
  fun c ↦
    let ((read, _), c') := rounds (statementRound statement inBlock) c
    (read, c')

/-- An indented block of statements. -/
def indentedBody (g : Nested) : Parser (List Statement) := do
  let _ ← take
  let _ ← take
  let body ← statements (g.statement true) true
  let _ ← expect .dedent
  return body

/-- The body after a colon (`Parser::parse_block_body`). -/
def blockBody (g : Nested) (construct : Construct) : Parser (List Statement) := do
  if (← cursor).atBlock then indentedBody g else missingBlock construct

/-- The body after a colon, which may be missing. -/
def blockBody? (g : Nested) : Parser (List Statement) := do
  if (← cursor).atBlock then indentedBody g else return []

/-- A colon and the body after it (`Parser::parse_block`). -/
def block (g : Nested) (construct : Construct) : Parser (List Statement) := do
  symbol .colon
  blockBody g construct

end Parser

end ProseLang
