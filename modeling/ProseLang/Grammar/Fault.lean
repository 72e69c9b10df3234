import ProseLang.Diagnostic.Code
import ProseLang.Text.Position

/-!
# Grammar faults

What can be wrong with the order of tokens. A fault says what went wrong; `ParseError` adds where.
-/

namespace ProseLang

/-- What a colon can open an indented block in. -/
inductive Construct
  | session
  | agentDefinition
  | blockDefinition
  | doBlock
  | parallelBlock
  | repeatBlock
  | forEachBlock
  | loopBlock
  | tryBlock
  | catchClause
  | finallyClause
  | choiceBlock
  | choiceOption
  | ifBlock
  | elseClause
  | pipeOperation
deriving DecidableEq, Repr

/-- The name of a construct in a message. -/
def Construct.text : Construct → String
  | session => "session"
  | agentDefinition => "agent definition"
  | blockDefinition => "block definition"
  | doBlock => "do block"
  | parallelBlock => "parallel block"
  | repeatBlock => "repeat block"
  | forEachBlock => "for-each block"
  | loopBlock => "loop block"
  | tryBlock => "try block"
  | catchClause => "catch clause"
  | finallyClause => "finally clause"
  | choiceBlock => "choice block"
  | choiceOption => "choice option"
  | ifBlock => "if block"
  | elseClause => "else clause"
  | pipeOperation => "pipe operation"

/-- What takes modifiers in parentheses. -/
inductive ModifierHost
  | session
  | parallel
  | loop
deriving DecidableEq, Repr

/-- The name of a host of modifiers in a message. -/
def ModifierHost.text : ModifierHost → String
  | session => "session"
  | parallel => "parallel"
  | loop => "loop"

/-- What the value of a property or modifier has to be. -/
inductive ValueShape
  | wholeNumber
  | string
  | agentName
  | modelName
  | skillNames
  | permissions
  | backoffStrategy
  | failurePolicy
deriving DecidableEq, Repr

/-- The name of a shape in a message. -/
def ValueShape.text : ValueShape → String
  | wholeNumber => "a whole number"
  | string => "a string"
  | agentName => "an agent name"
  | modelName => "a model name"
  | skillNames => "an array of skill names"
  | permissions => "an indented block of permissions"
  | backoffStrategy => "a quoted backoff strategy"
  | failurePolicy => "a quoted failure policy"

/-- What can be wrong with the order of tokens (`ParseError`). -/
inductive GrammarFault
  /-- Something else was called for; both sides are named in words. -/
  | unexpected (expected found : String)
  | missingBlock (construct : Construct)
  | unexpectedIndent
  /-- A `name:` where only a statement may stand. -/
  | strayProperty (name : String)
  | bareModifier (word : String)
  | unknownModifier (host : ModifierHost) (name : String)
  | wrongValue (key : String) (shape : ValueShape)
  | duplicateProperty (key : String)
  | notWholeNumber (text : String)
  /-- A `try` without `catch` and `finally`. -/
  | missingHandler
deriving DecidableEq, Repr

namespace GrammarFault

/-- The text of a fault (`ParseError`). -/
def message : GrammarFault → String
  | unexpected expected found => "expected " ++ expected ++ ", found " ++ found
  | missingBlock construct => "expected an indented block after ':' in " ++ construct.text
  | unexpectedIndent => "unexpected indentation"
  | strayProperty name =>
    "unexpected property '" ++ name ++ ":' outside of an agent or session block; "
      ++ "sessions must start with the \x60session\x60 keyword"
  | bareModifier word =>
    "modifier values must be quoted strings or numbers, found bare word '" ++ word ++ "'"
  | unknownModifier host name => "unknown " ++ host.text ++ " modifier '" ++ name ++ "'"
  | wrongValue key shape => "property '" ++ key ++ "' expects " ++ shape.text
  | duplicateProperty key => "property '" ++ key ++ "' is already set"
  | notWholeNumber text => "expected a whole number, found '" ++ text ++ "'"
  | missingHandler => "try block needs a catch or finally clause"

/-- The code a fault is listed under (`ParseError::code`). -/
def code : GrammarFault → Code
  | unexpected _ _ => .unexpectedToken
  | missingBlock _ => .expectedIndentedBlock
  | unexpectedIndent => .unexpectedIndent
  | strayProperty _ => .strayProperty
  | bareModifier _ => .bareModifierValue
  | unknownModifier _ _ => .unknownModifier
  | wrongValue _ _ => .invalidPropertyValue
  | duplicateProperty _ => .duplicateProperty
  | notWholeNumber _ => .invalidNumber
  | missingHandler => .missingHandler

end GrammarFault

/-- A grammar fault with its place (`ParseError`). -/
structure ParseError where
  fault : GrammarFault
  span : Span
deriving DecidableEq, Repr

end ProseLang
