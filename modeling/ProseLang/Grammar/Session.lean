import ProseLang.Grammar.Body

/-!
# Sessions and agents

Both are made of properties; a session also takes modifiers in parentheses. Each property that a
session or an agent has may be set once (`setOnce`). Properties that it does not have are kept as
they are, to be reported later.
-/

namespace ProseLang

/-- The value of a modifier (`ModifierValue`). -/
inductive ModifierValue
  | string (s : StringLit)
  | number (digits : Located String)

/-- The value of a modifier in words (`ModifierValue::text`). -/
def ModifierValue.text : ModifierValue → String
  | string s => s.value
  | number digits => digits.val

/-- One modifier, with or without a key (`Modifier`). -/
structure Modifier where
  key : Option Ident
  value : ModifierValue
  span : Span

/-- The error of a property or modifier at `span` whose value has the wrong shape (`invalid`). -/
def wrongValue {α : Type} (key : Ident) (shape : ValueShape) (span : Span) : Except ParseError α :=
  .error ⟨.wrongValue key.val shape, span⟩

/-- The error of a key that is written twice. -/
def duplicateKey {α : Type} (key : Ident) : Except ParseError α :=
  .error ⟨.duplicateProperty key.val, key.span⟩

/-- Fills a slot that must be empty (`set_once`). -/
def setOnce {α : Type} (slot : Option α) (key : Ident) (value : α) :
    Except ParseError (Option α) :=
  match slot with
  | none => .ok (some value)
  | some _ => duplicateKey key

namespace Expr

/-- The model that a value names, bare or quoted (`model_name`). -/
def modelName? : Expr → Option Ident
  | ident name => some name
  | string s => some ⟨s.value, s.span⟩
  | _ => none

/-- The text of a string. -/
def quoted? : Expr → Option Ident
  | string s => some ⟨s.value, s.span⟩
  | _ => none

/-- The skills that an array of strings names (`skill_list`). -/
def skillNames? : Expr → Option (List Ident)
  | array a => a.items.mapM quoted?
  | _ => none

end Expr

namespace SessionOf

/-- The session with one more modifier (`Parser::apply_session_modifier`). -/
def withModifier (s : Session) (m : Modifier) : Except ParseError Session := do
  let some key := m.key
    | .error ⟨.unknownModifier .session m.value.text, m.span⟩
  let s ← match key.val, m.value with
    | "retry", .number digits =>
      let n ← Parser.countOf digits
      pure { s with retry := ← setOnce s.retry key n }
    | "backoff", .string strategy =>
      pure { s with backoff := ← setOnce s.backoff key ⟨strategy.value, strategy.span⟩ }
    | "retry", _ => wrongValue key .wholeNumber m.span
    | "backoff", _ => wrongValue key .backoffStrategy m.span
    | _, _ => .error ⟨.unknownModifier .session key.val, key.span⟩
  return { s with keys := s.keys ++ [key] }

/-- The session with a property that sessions have; none if they do not have it
(`Parser::apply_session_property`). -/
def withKnown? (s : Session) (p : Property) : Except ParseError (Option Session) :=
  match p.key.val, p.value with
  | "agent", .expr (.ident agent) => do
    return some { s with agent := ← setOnce s.agent p.key agent }
  | "agent", _ => wrongValue p.key .agentName p.span
  | "model", .expr value =>
    match value.modelName? with
    | some model => do return some { s with model := ← setOnce s.model p.key model }
    | none => wrongValue p.key .modelName p.span
  | "prompt", .expr (.string prompt) => do
    return some { s with prompt := ← setOnce s.prompt p.key prompt }
  | "prompt", _ => wrongValue p.key .string p.span
  | "skills", .expr value =>
    match value.skillNames? with
    | some skills => do return some { s with skills := ← setOnce s.skills p.key skills }
    | none => wrongValue p.key .skillNames p.span
  | "context", .context context =>
    if s.context.isImplicit then .ok (some { s with context }) else duplicateKey p.key
  | "retry", .expr (.number digits) => do
    let n ← Parser.countOf digits
    return some { s with retry := ← setOnce s.retry p.key n }
  | "retry", _ => wrongValue p.key .wholeNumber p.span
  | "backoff", .expr (.string strategy) => do
    return some
      { s with backoff := ← setOnce s.backoff p.key ⟨strategy.value, strategy.span⟩ }
  | "backoff", _ => wrongValue p.key .backoffStrategy p.span
  | _, _ => .ok none

/-- The session with one more property (`Parser::apply_session_property`). -/
def withProperty (s : Session) (p : Property) : Except ParseError Session := do
  match ← s.withKnown? p with
  | some s => return { s with keys := s.keys ++ [p.key] }
  | none => return { s with properties := s.properties ++ [p] }

/-- The session with more modifiers, in order. -/
def withModifiers (s : Session) (ms : List Modifier) : Except ParseError Session :=
  ms.foldlM withModifier s

/-- The session with more properties, in order. -/
def withProperties (s : Session) (ps : List Property) : Except ParseError Session :=
  ps.foldlM withProperty s

end SessionOf

namespace AgentOf

/-- The agent with a property that agents have; none if they do not have it
(`Parser::parse_agent`). -/
def withKnown? (a : Agent) (p : Property) : Except ParseError (Option Agent) :=
  match p.key.val, p.value with
  | "model", .expr value =>
    match value.modelName? with
    | some model => do return some { a with model := ← setOnce a.model p.key model }
    | none => wrongValue p.key .modelName p.span
  | "prompt", .expr (.string prompt) => do
    return some { a with prompt := ← setOnce a.prompt p.key prompt }
  | "prompt", _ => wrongValue p.key .string p.span
  | "skills", .expr value =>
    if a.keys.any (·.val = "skills") then duplicateKey p.key
    else match value.skillNames? with
      | some skills => .ok (some { a with skills })
      | none => wrongValue p.key .skillNames p.span
  | "permissions", .nested group => do
    return some { a with permissions := ← setOnce a.permissions p.key group }
  | "permissions", _ => wrongValue p.key .permissions p.span
  | _, _ => .ok none

/-- The agent with one more property (`Parser::parse_agent`). -/
def withProperty (a : Agent) (p : Property) : Except ParseError Agent := do
  match ← a.withKnown? p with
  | some a => return { a with keys := a.keys ++ [p.key] }
  | none => return { a with properties := a.properties ++ [p] }

/-- The agent with more properties, in order. -/
def withProperties (a : Agent) (ps : List Property) : Except ParseError Agent :=
  ps.foldlM withProperty a

end AgentOf

namespace Parser

/-- The key of a modifier with its colon, if there is one. -/
def modifierKey? : Parser (Option Ident) := do
  match ← peek with
  | .identifier word =>
    if (← peekNext) ≠ .symbol .colon then
      throw ⟨.bareModifier word, (← cursor).current.span⟩
    let key ← name "a modifier name"
    let _ ← take
    return some key
  | _ => return none

/-- The value of a modifier. -/
def modifierValue : Parser ModifierValue := do
  match ← peek with
  | .string _ => .string <$> string "a value"
  | .number digits => return .number ⟨digits, (← take).span⟩
  | .identifier word => throw ⟨.bareModifier word, (← cursor).current.span⟩
  | _ => unexpected "a quoted string or a number"

/-- Modifiers in parentheses (`Parser::parse_modifiers`). -/
def modifiers : Parser (List Modifier) := do
  symbol .leftParen
  commaList .rightParen do
    let first := (← cursor).current.span
    let key ← modifierKey?
    let value ← modifierValue
    return { key, value, span := ← spanFrom first }

/-- Modifiers in parentheses, or none without parentheses. -/
def modifiers? : Parser (List Modifier) := do
  if ← atSymbol .leftParen then modifiers else return []

/-- Names in brackets or braces up to the closing delimiter. -/
def contextNames (close : Punctuation) (make : List Ident → Context) : Parser Context := do
  let _ ← take
  let names ← commaList close (name "a variable name")
  return if names.isEmpty then .empty else make names

/-- The value of a `context` property (`Parser::parse_context_spec`). -/
def context : Parser Context := do
  match ← peek with
  | .identifier _ => .single <$> name "a variable name"
  | .symbol .leftBracket => contextNames .rightBracket .list
  | .symbol .leftBrace => contextNames .rightBrace .object
  | _ => unexpected "a variable name, '[' or '\x7b'"

/-- The key of a property (`Parser::expect_property_key`). Before a colon a reserved word is a key
like any other. -/
def propertyKey : Parser Ident := do
  match ← peek with
  | .keyword word =>
    if (← peekNext) = .symbol .colon then return ⟨word.text, (← take).span⟩
    else name "a property name"
  | _ => name "a property name"

/-- A property (`Parser::parse_property`). -/
def property (g : Nested) (pipes : Bool) : Parser Property := do
  let key ← propertyKey
  symbol .colon
  let value : PropertyValue ←
    if key.val = "context" then .context <$> context
    else if (← cursor).atBlock then .nested <$> g.properties pipes
    else .expr <$> g.value pipes
  return { key, value, span := ← spanFrom key.span }

/-- One round of reading the properties of a block (`Parser::parse_property_block`). -/
def propertyRound (g : Nested) (pipes : Bool) : StateM Cursor (List Property × RoundEnd) := do
  modify fun c ↦ c.skipNewlines.skipComments
  match (← get).current.kind with
  | .dedent | .endOfFile => return ([], .stop)
  | _ =>
    match ← recovering (property g pipes) with
    | some p =>
      let _ ← recovering endStatement
      return ([p], .again)
    | none => return ([], .again)

/-- An indented block of properties (`Parser::parse_property_block`). A property that fails is
recorded and left out. -/
def propertyBlock (g : Nested) (pipes : Bool) : Parser (List Property) := do
  let _ ← expect .newline
  let _ ← expect .indent
  let properties ← fun c ↦
    let ((read, _), c') := rounds (propertyRound g pipes) c
    (.ok read, c')
  let _ ← expect .dedent
  return properties

/-- Properties in braces (`Parser::parse_inline_properties`). -/
def inlineProperties (g : Nested) (pipes : Bool) : Parser (List Property) := do
  symbol .leftBrace
  commaList .rightBrace (property g pipes)

/-- What follows the colon of a session: an agent, properties, or both. -/
def sessionDetails (g : Nested) (pipes : Bool) (s : Session) : Parser Session := do
  match ← peek with
  | .identifier _ =>
    let s := { s with agent := some (← name "an agent name") }
    if (← cursor).atBlock then s.withProperties (← propertyBlock g pipes)
    else return s
  | .symbol .leftBrace => s.withProperties (← inlineProperties g pipes)
  | _ =>
    if (← cursor).atBlock then s.withProperties (← propertyBlock g pipes)
    else missingBlock .session

/-- A session (`Parser::parse_session`). -/
def session (g : Nested) (pipes : Bool) : Parser Session := do
  let first ← keyword .session
  let name ← match ← peek with
    | .identifier _ => some <$> name "a session name"
    | _ => pure none
  let prompt ← match ← peek with
    | .string _ => some <$> string "a prompt"
    | _ => pure none
  let s ← SessionOf.withModifiers { name, prompt } (← modifiers?)
  let s ← if ← symbol? .colon then sessionDetails g pipes s else pure s
  return { s with span := ← spanFrom first }

/-- The definition of an agent (`Parser::parse_agent`). -/
def agent (g : Nested) (pipes : Bool) : Parser Agent := do
  let first ← keyword .agent
  let name ← name "an agent name"
  symbol .colon
  if !(← cursor).atBlock then missingBlock .agentDefinition
  let empty : Agent :=
    { name, model := none, prompt := none, skills := [], permissions := none, properties := [],
      keys := [], span := first }
  let a ← empty.withProperties (← propertyBlock g pipes)
  return { a with span := ← spanFrom first }

end Parser

end ProseLang
