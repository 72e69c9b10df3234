import ProseLang.Grammar.Session

/-!
# Values, pipes and `do`

A value is a string, a number, a name, an array, an object, a discretion or an action, and any
number of pipe operations may follow it.
-/

namespace ProseLang.Parser

/-- `do` with a body, or the invocation of a block (`Parser::parse_do`). -/
def doAction (g : Nested) (pipes : Bool) : Parser Action := do
  let first ← keyword .do_
  if ← atSymbol .colon then
    let body ← block g .doBlock
    return .doBlock { body, span := ← spanFrom first }
  let name ← name "a block name or ':'"
  let args ← parenthesized? (g.value pipes)
  return .invoke { name, args, span := ← spanFrom first }

/-- An entry of an object. -/
def objectEntry (g : Nested) (pipes : Bool) : Parser Entry := do
  let key ← name "an object key"
  let value ← if ← symbol? .colon then some <$> g.value pipes else pure none
  return { key, value }

/-- A value without pipe operations (`Parser::parse_primary`). -/
def primary (g : Nested) (pipes : Bool) : Parser Expr := do
  match ← peek with
  | .keyword .session => return .action (.session (← session g pipes))
  | .keyword .do_ => .action <$> doAction g pipes
  | .string _ => .string <$> string "a string"
  | .number digits => return .number ⟨digits, (← take).span⟩
  | .identifier _ => .ident <$> name "a name"
  | .discretion _ => .discretion <$> discretion "a discretion"
  | .symbol .leftBracket =>
    let first := (← take).span
    let items ← commaList .rightBracket (g.value pipes)
    return .array { items, span := ← spanFrom first }
  | .symbol .leftBrace =>
    let first := (← take).span
    let entries ← commaList .rightBrace (objectEntry g pipes)
    return .object { entries, span := ← spanFrom first }
  | _ => unexpected "a value"

/-- The pipe operators in words. -/
def pipeOperators : String := "'map', 'filter', 'reduce' or 'pmap'"

/-- The names in parentheses after an operator: those of the item and of the accumulator. Only
`reduce` names an accumulator, and it has to name both. -/
def pipeNames (operator : PipeOperator) : Parser (Option Ident × Option Ident) := do
  if operator = .reduce then
    symbol .leftParen
    let accumulator ← name "an accumulator name"
    symbol .comma
    let item ← name "an item name"
    symbol .rightParen
    return (some item, some accumulator)
  if ← symbol? .leftParen then
    let item ← name "an item name"
    symbol .rightParen
    return (some item, none)
  return (none, none)

/-- A body on the same line as its colon (`Parser::parse_inline_body`). -/
def inlineBody (g : Nested) : Parser (List Statement) := do
  match ← peek with
  | .newline | .dedent | .endOfFile => missingBlock .pipeOperation
  | _ =>
    match ← g.statement false with
    | (read, none) => return read
    | (_, some e) => throw e

/-- A bar and the operation after it (`Parser::parse_pipe_operation`). -/
def pipeOperation (g : Nested) : Parser Operation := do
  let first := (← expect (.symbol .pipe)).span
  let name ← name pipeOperators
  let some operator := PipeOperator.ofText? name.val
    | throw ⟨.unexpected pipeOperators (TokenKind.identifier name.val).describe, name.span⟩
  let (item, accumulator) ← pipeNames operator
  symbol .colon
  let body ← if (← cursor).atBlock then indentedBody g else inlineBody g
  return { operator := ⟨operator, name.span⟩, item, accumulator, body, span := ← spanFrom first }

/-- The operations after the input of a pipe that starts at `first` (`Parser::parse_pipe_tail`). -/
def pipeTail (g : Nested) (input : Expr) (first : Span) : Parser Pipe := do
  let operations ← manyWhile (atSymbol .pipe) (pipeOperation g)
  return { input, operations, span := ← spanFrom first }

/-- Whether a pipe operation follows. -/
def atPipe (pipes : Bool) : Parser Bool := do return pipes && (← atSymbol .pipe)

/-- A value (`Parser::parse_value`). -/
def value (g : Nested) (pipes : Bool) : Parser Expr := do
  let first := (← cursor).current.span
  let input ← primary g pipes
  if ← atPipe pipes then return .action (.pipe (← pipeTail g input first)) else return input

end ProseLang.Parser
