import ProseLang.Grammar.Value

/-!
# Statements

One parser for each construct, and `Parser.statement`, which chooses among them by the token at
the cursor. Sessions joined by arrows are several statements.
-/

namespace ProseLang

/-- A value in words (`describe_expr`). -/
def Expr.describe : Expr → String
  | action (.session _) => "a session"
  | action (.pipe _) => "a pipe expression"
  | action (.doBlock _) => "a do block"
  | action (.invoke _) => "a block invocation"
  | string _ => "a string"
  | number _ => "a number"
  | ident _ => "an identifier"
  | array _ => "an array"
  | object _ => "an object"
  | discretion _ => "a discretion"

/-- The parallel block with one more modifier (`Parser::parse_parallel`). Of a modifier that is
written twice the last counts; there may be one without a key. -/
def ParallelOf.withModifier (p : Parallel) (m : Modifier) : Except ParseError Parallel :=
  match m.key, m.value with
  | none, value =>
    match p.join, value with
    | none, .string s => .ok { p with join := some ⟨s.value, s.span⟩ }
    | _, _ => .error ⟨.unknownModifier .parallel value.text, m.span⟩
  | some key, value =>
    match key.val, value with
    | "on-fail", .string s =>
      .ok { p with onFail := some ⟨s.value, s.span⟩, keys := p.keys ++ [key] }
    | "on-fail", _ => wrongValue key .failurePolicy m.span
    | "count", .number digits => do
      return { p with count := some (← Parser.countOf digits), keys := p.keys ++ [key] }
    | "count", _ => wrongValue key .wholeNumber m.span
    | _, _ => .error ⟨.unknownModifier .parallel key.val, key.span⟩

/-- The loop with one more modifier (`Parser::parse_loop`). Of a modifier that is written twice the
last counts. -/
def LoopOf.withModifier (l : Loop) (m : Modifier) : Except ParseError Loop :=
  match m.key, m.value with
  | none, value => .error ⟨.unknownModifier .loop value.text, m.span⟩
  | some key, value =>
    match key.val, value with
    | "max", .number digits => do
      return { l with maxIterations := some (← Parser.countOf digits), keys := l.keys ++ [key] }
    | "max", _ => wrongValue key .wholeNumber m.span
    | _, _ => .error ⟨.unknownModifier .loop key.val, m.span⟩

/-- The parallel block with more modifiers, in order. -/
def ParallelOf.withModifiers (p : Parallel) (ms : List Modifier) : Except ParseError Parallel :=
  ms.foldlM ParallelOf.withModifier p

/-- The loop with more modifiers, in order. -/
def LoopOf.withModifiers (l : Loop) (ms : List Modifier) : Except ParseError Loop :=
  ms.foldlM LoopOf.withModifier l

namespace Parser

/-- The import of a skill (`Parser::parse_import`). -/
def importSkill : Parser Import := do
  let first ← keyword .import_
  let skill ← string "a skill name string"
  let fromKeyword ← keyword .from_
  let source ← string "a source string"
  return { skill, source, fromKeyword, span := ← spanFrom first }

/-- The definition of a block (`Parser::parse_block_definition`). -/
def blockDefinition (g : Nested) : Parser Block := do
  let first ← keyword .block
  let name ← name "a block name"
  let params ← parenthesized? (Parser.name "a parameter name")
  let body ← block g .blockDefinition
  return { name, params, body, span := ← spanFrom first }

/-- The declaration of a variable (`Parser::parse_binding`). -/
def binding (g : Nested) (pipes : Bool) (kind : BindingKind) : Parser Binding := do
  let first ← keyword kind.keyword
  let name ← name "a variable name"
  symbol .equals
  let value ← value g pipes
  return { name, value, span := ← spanFrom first }

/-- The assignment of a variable (`Parser::parse_reassignment`). -/
def assignment (g : Nested) (pipes : Bool) : Parser Binding := do
  let name ← name "a variable name"
  symbol .equals
  let value ← value g pipes
  return { name, value, span := ← spanFrom name.span }

/-- The variable after `as` (`Parser::parse_as_binding`). -/
def asBinding? : Parser (Option AsBinding) := do
  match ← take? (.keyword .as_) with
  | some t => return some { keyword := t.span, name := ← name "a variable name after 'as'" }
  | none => return none

/-- A loop over a collection; `parallelKeyword` is the place of `parallel` if it stood in front
(`Parser::parse_for_each`). -/
def forEach (g : Nested) (pipes : Bool) (parallelKeyword : Option Span) : Parser ForEach := do
  let forKeyword ← keyword .for_
  let item ← name "a loop variable"
  let index ← if ← symbol? .comma then some <$> name "an index variable" else pure none
  let inKeyword ← keyword .in_
  let collection ← primary g pipes
  let body ← block g .forEachBlock
  return { item, index, collection, isParallel := parallelKeyword.isSome, forKeyword, inKeyword,
           body, span := ← spanFrom (parallelKeyword.getD forKeyword) }

/-- A parallel block, or a loop over a collection whose rounds run in parallel
(`Parser::parse_parallel`). -/
def parallel (g : Nested) (pipes : Bool) : Parser Statement := do
  let first ← keyword .parallel
  if ← at? (.keyword .for_) then return .forEach (← forEach g pipes (some first))
  let empty : Parallel :=
    { join := none, onFail := none, count := none, keys := [], body := [], span := first }
  let p ← empty.withModifiers (← modifiers?)
  symbol .colon
  let body ← blockBody? g
  return .parallel { p with body, span := ← spanFrom first }

/-- A loop of a fixed number of rounds (`Parser::parse_repeat`). -/
def repeated (g : Nested) : Parser Repeat := do
  let first ← keyword .repeat_
  let count ← count "a repeat count"
  let index ← asBinding?
  let body ← block g .repeatBlock
  return { count, index, body, span := ← spanFrom first }

/-- The condition of a loop. -/
def loopCondition (kind : ConditionKind) : Parser LoopCondition := do
  let keyword := (← take).span
  let discretion ← discretion "a **condition**"
  return { kind, keyword, discretion }

/-- The condition of a loop, if there is one. -/
def loopCondition? : Parser (Option LoopCondition) := do
  match ← peek with
  | .keyword .until_ => some <$> loopCondition .until_
  | .keyword .while_ => some <$> loopCondition .while_
  | _ => return none

/-- A loop with or without a condition (`Parser::parse_loop`). -/
def loop (g : Nested) : Parser Loop := do
  let first ← keyword .loop
  let condition ← loopCondition?
  let index ← asBinding?
  let empty : Loop :=
    { condition, maxIterations := none, index, keys := [], body := [], span := first }
  let l ← empty.withModifiers (← modifiers?)
  let body ← block g .loopBlock
  return { l with body, span := ← spanFrom first }

/-- A clause that may follow a block, behind comments. -/
def clause? {α : Type} (word : Keyword) (p : Span → Parser α) : Parser (Option α) := do
  if (← cursor).comesNext (.keyword word) then
    move Cursor.skipComments
    let first := (← take).span
    some <$> p first
  else return none

/-- A body with what runs after its failure (`Parser::parse_try`). A `try` with no clause at all is
an error that does not end it. -/
def attempt (g : Nested) : Parser Try := do
  let first ← keyword .try_
  let body ← block g .tryBlock
  let handler ← clause? .catch_ fun first ↦ do
    let error ← asBinding?
    let body ← block g .catchClause
    return ({ error, body, span := ← spanFrom first } : Handler)
  let cleanup ← clause? .finally_ fun first ↦ do
    let body ← block g .finallyClause
    return ({ body, span := ← spanFrom first } : Body)
  if handler.isNone && cleanup.isNone then move (·.report ⟨.missingHandler, first⟩)
  return { body, handler, cleanup, span := ← spanFrom first }

/-- A `throw` (`Parser::parse_throw`). -/
def throwStatement : Parser Throw := do
  let first ← keyword .throw
  let message ← match ← peek with
    | .string _ => some <$> string "a message"
    | _ => pure none
  return { message, span := ← spanFrom first }

/-- An option of a choice (`Parser::parse_choice_option`). -/
def choiceOption (g : Nested) : Parser ChoiceOption := do
  let first ← keyword .option
  let label ← string "an option label"
  let body ← block g .choiceOption
  return { label, body, span := ← spanFrom first }

/-- One round of reading the options of a choice. -/
def choiceRound (g : Nested) : StateM Cursor (List ChoiceOption × RoundEnd) := do
  modify fun c ↦ c.skipNewlines.skipComments
  match (← get).current.kind with
  | .dedent | .endOfFile => return ([], .stop)
  | .keyword .option => return ((← recovering (choiceOption g)).toList, .again)
  | _ => return ((← recovering (unexpected "'option'")).toList, .again)

/-- A choice (`Parser::parse_choice`). An option that fails is recorded and left out; at least one
has to remain. -/
def choice (g : Nested) : Parser Choice := do
  let first ← keyword .choice
  let criteria ← discretion "a **criteria**"
  symbol .colon
  if !(← cursor).atBlock then missingBlock .choiceBlock
  let _ ← take
  let _ ← take
  let options ← fun c ↦
    let ((read, _), c') := rounds (choiceRound g) c
    (.ok read, c')
  let _ ← expect .dedent
  if options.isEmpty then
    throw ⟨.unexpected "at least one 'option'" "an empty choice block", first⟩
  return { criteria, options, span := ← spanFrom first }

/-- A condition and its body (`Parser::parse_conditional_branch`). -/
def branch (g : Nested) (word : Keyword) : Parser Branch := do
  let keyword ← keyword word
  let condition ← discretion "a **condition**"
  let body ← block g .ifBlock
  return { keyword, condition, body, span := ← spanFrom keyword }

/-- Conditions tried in order (`Parser::parse_if`). -/
def conditional (g : Nested) : Parser Conditional := do
  let first := (← cursor).current.span
  let start ← branch g .if_
  let more ← manyWhile (return (← cursor).comesNext (.keyword .elif)) do
    move Cursor.skipComments
    branch g .elif
  let otherwise ← clause? .else_ fun first ↦ do
    let body ← block g .elseClause
    return ({ body, span := ← spanFrom first } : Body)
  return { branches := start :: more, otherwise, span := ← spanFrom first }

/-- A value that pipe operations make a statement (`Parser::parse_expression_statement`). -/
def pipeStatement (g : Nested) (pipes : Bool) : Parser Statement := do
  let first := (← cursor).current.span
  let input ← primary g pipes
  if ← atPipe pipes then return .action (.pipe (← pipeTail g input first))
  throw ⟨.unexpected "a statement" input.describe, input.span⟩

/-- A statement other than sessions (`Parser::parse_statement`). -/
def oneStatement (g : Nested) (pipes : Bool) : Parser Statement := do
  match ← peek with
  | .comment text => return .comment ⟨text, (← take).span⟩
  | .keyword .import_ => .importSkill <$> importSkill
  | .keyword .agent => return .agent (← agent g pipes)
  | .keyword .block => .block <$> blockDefinition g
  | .keyword .let_ => .binding .variable <$> binding g pipes .variable
  | .keyword .const => .binding .constant <$> binding g pipes .constant
  | .keyword .do_ => .action <$> doAction g pipes
  | .keyword .parallel => parallel g pipes
  | .keyword .repeat_ => .repeated <$> repeated g
  | .keyword .for_ => .forEach <$> forEach g pipes none
  | .keyword .loop => .loop <$> loop g
  | .keyword .try_ => .attempt <$> attempt g
  | .keyword .throw => .throw <$> throwStatement
  | .keyword .choice => .choice <$> choice g
  | .keyword .if_ => .conditional <$> conditional g
  | .identifier name =>
    match ← peekNext with
    | .symbol .equals => .assignment <$> assignment g pipes
    | .symbol .colon => throw ⟨.strayProperty name, (← cursor).current.span⟩
    | _ => pipeStatement g pipes
  | .string _ | .number _ | .symbol .leftBracket | .symbol .leftBrace | .discretion _ =>
    pipeStatement g pipes
  | _ => unexpected "a statement"

/-- One session of a sequence: the last one, which may be the input of a pipe, or one with an arrow
to the next (`Parser::parse_session_sequence`). -/
def sessionRound (g : Nested) (pipes : Bool) : StateM Cursor (List Statement × RoundEnd) := do
  let first := (← get).current.span
  match ← (session g pipes).run with
  | .error e => return ([], .fail e)
  | .ok s =>
    match ← (take? (.symbol .arrow)).run with
    | .error e => return ([], .fail e)
    | .ok (some arrow) =>
      let read := [Statement.action (.session { s with arrow := some arrow.span })]
      let next := (← get).current
      if next.kind = .keyword .session then return (read, .again)
      let error := .unexpected "'session' after '->'" next.kind.describe
      return (read, .fail ⟨error, next.span⟩)
    | .ok none =>
      if pipes && (← get).current.kind = .symbol .pipe then
        match ← (pipeTail g (.action (.session s)) first).run with
        | .ok p => return ([.action (.pipe p)], .stop)
        | .error e => return ([], .fail e)
      else return ([.action (.session s)], .stop)

/-- A statement, or the sessions of an arrow sequence (`Parser::parse_statement`). -/
def statement (g : Nested) (pipes : Bool) : StatementParser := fun c ↦
  if c.current.kind = .keyword .session then rounds (sessionRound g pipes) c
  else match oneStatement g pipes c with
    | (.ok s, c') => (([s], none), c')
    | (.error e, c') => (([], some e), c')

end Parser

/-- The parsers for constructs that are nested less than `depth` deep. What is nested in a
construct starts after at least one of its tokens, so a depth of one more than the number of
tokens is never reached. -/
def Nested.upTo : Nat → Nested
  | 0 =>
    { value := fun _ ↦ Parser.unexpected "a value"
      statement := fun _ c ↦
        (([], some ⟨.unexpected "a statement" c.current.kind.describe, c.current.span⟩), c)
      properties := fun _ ↦ Parser.unexpected "a property name" }
  | depth + 1 =>
    let g := upTo depth
    { value := Parser.value g
      statement := Parser.statement g
      properties := Parser.propertyBlock g }

end ProseLang
