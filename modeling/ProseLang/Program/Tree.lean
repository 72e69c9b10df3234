import ProseLang.Program.Leaf

/-!
# Programs

A program is a list of statements. Statements hold bodies of statements and values; a value may be
an action, which is anything that can also stand as a statement of its own: a session, a pipe, a
`do` block or the invocation of a block.

Each construct is a structure over the type of what it holds (`RepeatOf S` has a body of `S`); the
inductive types `Statement`, `Action`, `Expr` and `PropertyValue` tie them together.
-/

namespace ProseLang

/-- A `key: value` pair of an agent or a session (`Property`). -/
structure PropertyOf (V : Type) where
  key : Ident
  value : V
  span : Span

/-- The definition of an agent (`AgentDefinition`). -/
structure AgentOf (P : Type) where
  name : Ident
  model : Option Ident
  prompt : Option StringLit
  skills : List Ident
  permissions : Option (List P)
  /-- Properties that agents do not have. -/
  properties : List P
  /-- The keys of the properties that agents have, as written. -/
  keys : List Ident
  span : Span

/-- The definition of a block of statements with parameters (`BlockDefinition`). -/
structure BlockOf (S : Type) where
  name : Ident
  params : List Ident
  body : List S
  span : Span

/-- A session (`SessionStatement`). -/
structure SessionOf (P : Type) where
  name : Option Ident := none
  prompt : Option StringLit := none
  agent : Option Ident := none
  model : Option Ident := none
  skills : Option (List Ident) := none
  context : Context := .implicit
  retry : Option (Located Nat) := none
  backoff : Option (Located String) := none
  /-- Properties that sessions do not have. -/
  properties : List P := []
  /-- The keys of the properties and modifiers that sessions have, as written. -/
  keys : List Ident := []
  /-- The arrow that leads to the next session. -/
  arrow : Option Span := none
  span : Span := .nowhere

/-- A name with its value (`Binding`). -/
structure BindingOf (E : Type) where
  name : Ident
  value : E
  span : Span

/-- A body of statements that runs as one, with the place of its header (`DoBlock`). -/
structure BodyOf (S : Type) where
  body : List S
  span : Span

/-- Branches that run at the same time (`ParallelBlock`). -/
structure ParallelOf (S : Type) where
  join : Option (Located String)
  onFail : Option (Located String)
  count : Option (Located Nat)
  /-- The keys of the modifiers, as written. -/
  keys : List Ident
  body : List S
  span : Span

/-- A body that runs a fixed number of times (`RepeatBlock`). -/
structure RepeatOf (S : Type) where
  count : Located Nat
  index : Option AsBinding
  body : List S
  span : Span

/-- A body that runs for each item of a collection (`ForEachBlock`). -/
structure ForEachOf (E S : Type) where
  item : Ident
  index : Option Ident
  collection : E
  isParallel : Bool
  forKeyword : Span
  inKeyword : Span
  body : List S
  span : Span

/-- A body that runs until a condition is met or a number of times is reached (`LoopBlock`). -/
structure LoopOf (S : Type) where
  condition : Option LoopCondition
  maxIterations : Option (Located Nat)
  index : Option AsBinding
  /-- The keys of the modifiers, as written. -/
  keys : List Ident
  body : List S
  span : Span

/-- What runs after a failure (`CatchClause`). -/
structure HandlerOf (S : Type) where
  error : Option AsBinding
  body : List S
  span : Span

/-- A body with what runs after its failure and what runs in any case (`TryBlock`). -/
structure TryOf (S : Type) where
  body : List S
  handler : Option (HandlerOf S)
  cleanup : Option (BodyOf S)
  span : Span

/-- One option of a choice (`ChoiceOption`). -/
structure OptionOf (S : Type) where
  label : StringLit
  body : List S
  span : Span

/-- A choice among options by free criteria (`ChoiceBlock`). -/
structure ChoiceOf (S : Type) where
  criteria : Discretion
  options : List (OptionOf S)
  span : Span

/-- One condition with its body (`ConditionalBranch`). -/
structure BranchOf (S : Type) where
  keyword : Span
  condition : Discretion
  body : List S
  span : Span

/-- Conditions tried in order, and what runs if none holds (`IfElseBlock`). -/
structure ConditionalOf (S : Type) where
  branches : List (BranchOf S)
  otherwise : Option (BodyOf S)
  span : Span

/-- One operation of a pipe (`PipeOperation`). -/
structure OperationOf (S : Type) where
  operator : Located PipeOperator
  item : Option Ident
  /-- The name of the accumulator; only `reduce` has one. -/
  accumulator : Option Ident
  body : List S
  span : Span

/-- A value sent through operations, left to right (`PipeExpression`). -/
structure PipeOf (E S : Type) where
  input : E
  operations : List (OperationOf S)
  span : Span

/-- The invocation of a block (`BlockInvocation`). -/
structure InvocationOf (E : Type) where
  name : Ident
  args : List E
  span : Span

/-- An array of values (`ArrayLiteral`). -/
structure ArrayOf (E : Type) where
  items : List E
  span : Span

/-- An entry of an object; a key alone stands for the variable of that name (`ObjectEntry`). -/
structure EntryOf (E : Type) where
  key : Ident
  value : Option E

/-- An object (`ObjectLiteral`). -/
structure ObjectOf (E : Type) where
  entries : List (EntryOf E)
  span : Span

mutual

/-- A statement (`Statement`). -/
inductive Statement where
  /-- A comment on a line of its own. -/
  | comment (c : Comment)
  | importSkill (i : Import)
  | agent (a : AgentOf (PropertyOf PropertyValue))
  | block (b : BlockOf Statement)
  | binding (kind : BindingKind) (b : BindingOf Expr)
  | assignment (a : BindingOf Expr)
  | action (a : Action)
  | parallel (p : ParallelOf Statement)
  | repeated (r : RepeatOf Statement)
  | forEach (f : ForEachOf Expr Statement)
  | loop (l : LoopOf Statement)
  | attempt (t : TryOf Statement)
  | throw (t : Throw)
  | choice (c : ChoiceOf Statement)
  | conditional (c : ConditionalOf Statement)

/-- What can run as a statement or as a value. -/
inductive Action where
  | session (s : SessionOf (PropertyOf PropertyValue))
  | pipe (p : PipeOf Expr Statement)
  | doBlock (b : BodyOf Statement)
  | invoke (i : InvocationOf Expr)

/-- A value (`Expr`). -/
inductive Expr where
  | action (a : Action)
  | string (s : StringLit)
  | number (n : Located String)
  | ident (name : Ident)
  | array (a : ArrayOf Expr)
  | object (o : ObjectOf Expr)
  | discretion (d : Discretion)

/-- The value of a property (`PropertyValue`). -/
inductive PropertyValue where
  | expr (e : Expr)
  | context (c : Context)
  /-- An indented group of properties. -/
  | nested (ps : List (PropertyOf PropertyValue))

end

/-! The constructs of whole programs: what is nested in them are statements and values. -/

abbrev Property := PropertyOf PropertyValue
abbrev Agent := AgentOf Property
abbrev Block := BlockOf Statement
abbrev Session := SessionOf Property
abbrev Binding := BindingOf Expr
abbrev Body := BodyOf Statement
abbrev Parallel := ParallelOf Statement
abbrev Repeat := RepeatOf Statement
abbrev ForEach := ForEachOf Expr Statement
abbrev Loop := LoopOf Statement
abbrev Handler := HandlerOf Statement
abbrev Try := TryOf Statement
abbrev ChoiceOption := OptionOf Statement
abbrev Choice := ChoiceOf Statement
abbrev Branch := BranchOf Statement
abbrev Conditional := ConditionalOf Statement
abbrev Operation := OperationOf Statement
abbrev Pipe := PipeOf Expr Statement
abbrev Invocation := InvocationOf Expr
abbrev ArrayLit := ArrayOf Expr
abbrev Entry := EntryOf Expr
abbrev ObjectLit := ObjectOf Expr

/-- A whole program (`Program`). -/
structure Program where
  statements : List Statement := []
  /-- Every comment, in the order of the text. -/
  comments : List Comment := []
  span : Span := .nowhere

namespace OperationOf

variable {S : Type}

/-- The name that stands for an item where none is written. -/
def defaultItem : String := "item"

/-- The name that stands for the accumulator where none is written. -/
def defaultAccumulator : String := "acc"

/-- The name of an item in the body (`PipeOperation::item_name`). -/
def itemName (op : OperationOf S) : String := (op.item.map Located.val).getD defaultItem

/-- The name of the accumulator in the body (`PipeOperation::acc_name`). -/
def accumulatorName (op : OperationOf S) : String :=
  (op.accumulator.map Located.val).getD defaultAccumulator

end OperationOf

/-- The place of an action. -/
def Action.span : Action → Span
  | session s => s.span
  | pipe p => p.span
  | doBlock b => b.span
  | invoke i => i.span

/-- The place of a value (`Expr::span`). -/
def Expr.span : Expr → Span
  | action a => a.span
  | string s => s.span
  | number n => n.span
  | ident name => name.span
  | array a => a.span
  | object o => o.span
  | discretion d => d.span

namespace Statement

/-- The place of a statement (`Statement::span`). -/
def span : Statement → Span
  | comment c => c.span
  | importSkill i => i.span
  | agent a => a.span
  | block b => b.span
  | binding _ b => b.span
  | assignment a => a.span
  | action a => a.span
  | parallel p => p.span
  | repeated r => r.span
  | forEach f => f.span
  | loop l => l.span
  | attempt t => t.span
  | throw t => t.span
  | choice c => c.span
  | conditional c => c.span

/-- Whether the statement does something, rather than say something about the program
(`Statement::is_executable`). -/
def isExecutable : Statement → Bool
  | comment _ | importSkill _ | agent _ | block _ => false
  | _ => true

/-- The name under which later statements know the result (`Statement::bound_name`). -/
def boundName? : Statement → Option Ident
  | binding _ b => some b.name
  | assignment a => some a.name
  | action (.session s) => s.name
  | _ => none

/-- What kind of statement it is, in words (`Statement::kind_name`). -/
def kindName : Statement → String
  | comment _ => "comment"
  | importSkill _ => "import"
  | agent _ => "agent definition"
  | block _ => "block definition"
  | binding .variable _ => "let binding"
  | binding .constant _ => "const binding"
  | assignment _ => "assignment"
  | action (.session _) => "session"
  | action (.pipe _) => "pipe expression"
  | action (.doBlock _) => "do block"
  | action (.invoke _) => "block invocation"
  | parallel _ => "parallel block"
  | repeated _ => "repeat block"
  | forEach _ => "for-each block"
  | loop _ => "loop block"
  | attempt _ => "try block"
  | throw _ => "throw"
  | choice _ => "choice block"
  | conditional _ => "if block"

end Statement

/-- The names under which the results of the branches are known, in order
(`ParallelBlock::branch_names`). -/
def ParallelOf.branchNames (p : Parallel) : List Ident := p.body.filterMap Statement.boundName?

end ProseLang
