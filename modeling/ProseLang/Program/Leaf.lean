import ProseLang.Token.Keyword
import ProseLang.Token.Literal

/-!
# Leaves of a program

The parts of a program that hold no statement or value of their own: names, literals, comments,
the context of a session, and the words for strategies and operators.
-/

namespace ProseLang

/-- A value with the place it was written at; `Span.nowhere` if it was not written (`Spanned`). -/
structure Located (α : Type) where
  val : α
  span : Span
deriving DecidableEq, Repr, Inhabited

/-- A value that was not written (`Spanned::dummy`). -/
def Located.made {α : Type} (val : α) : Located α := ⟨val, .nowhere⟩

/-- The name of a variable, an agent, a block, a parameter or a property (`Ident`). -/
abbrev Ident := Located String

/-- A comment with its leading `#` (`Comment`). -/
structure Comment where
  text : String
  span : Span
deriving DecidableEq, Repr

/-- A string in a program (`StringLit`). -/
structure StringLit where
  /-- The text it stands for; an interpolated name keeps its braces. -/
  value : String
  /-- The literal as written, quotes included. -/
  raw : String
  triple : Bool
  /-- The interpolated names in order. -/
  interpolations : List Ident
  span : Span
deriving DecidableEq, Repr

namespace StringLit

/-- The string that a literal at `span` stands for (`StringLit::from_literal`). -/
def ofLiteral (literal : StringLiteral) (span : Span) : StringLit where
  value := literal.value
  raw := literal.raw
  triple := literal.triple
  interpolations := literal.holes.map fun h ↦ ⟨h.1, h.2⟩
  span

/-- A string that was not written (`StringLit::synthesized`). -/
def made (text : String) : StringLit := ofLiteral (.ofText text) .nowhere

end StringLit

/-- Free text in a program, left to the reader's judgement (`Discretion`). -/
structure Discretion where
  text : String
  multiline : Bool
  /-- The text with its markers, as written. -/
  raw : String
  span : Span
deriving DecidableEq, Repr

/-- Which earlier results a session sees (`ContextSpec`). -/
inductive Context
  /-- Nothing is written; the place of the session decides. -/
  | implicit
  | single (name : Ident)
  | list (names : List Ident)
  | object (names : List Ident)
  /-- No results at all. -/
  | empty
deriving DecidableEq, Repr, Inhabited

namespace Context

/-- The names that a context refers to (`ContextSpec::references`). -/
def names : Context → List Ident
  | single name => [name]
  | list names => names
  | object names => names
  | implicit | empty => []

/-- Whether nothing is written (`ContextSpec::is_implicit`). -/
def isImplicit : Context → Bool
  | implicit => true
  | _ => false

end Context

/-- The variable that a header binds with `as` (`AsBinding`). -/
structure AsBinding where
  keyword : Span
  name : Ident
deriving DecidableEq, Repr

/-- The two ways to declare a variable (`BindingKind`). -/
inductive BindingKind
  /-- Declared with `let`; it may be assigned again. -/
  | variable
  /-- Declared with `const`. -/
  | constant
deriving DecidableEq, Repr

/-- The word that declares a variable. -/
def BindingKind.keyword : BindingKind → Keyword
  | .variable => .let_
  | .constant => .const

/-- When a parallel block is done (`JoinStrategy`). -/
inductive JoinStrategy
  | all
  | first
  | any
  | regardless
deriving DecidableEq, Repr

namespace JoinStrategy

/-- The word for a strategy (`JoinStrategy::as_str`). -/
def text : JoinStrategy → String
  | all => "all"
  | first => "first"
  | any => "any"
  | regardless => "regardless"

/-- The strategy that a word stands for (`JoinStrategy::parse`). -/
def ofText? (word : String) : Option JoinStrategy :=
  [all, first, any, regardless].find? (·.text = word)

end JoinStrategy

/-- What a parallel block does about a branch that fails (`FailurePolicy`). -/
inductive FailurePolicy
  | failFast
  | continue_
  | ignore
deriving DecidableEq, Repr

namespace FailurePolicy

/-- The word for a policy (`FailurePolicy::as_str`). -/
def text : FailurePolicy → String
  | failFast => "fail-fast"
  | continue_ => "continue"
  | ignore => "ignore"

/-- The policy that a word stands for (`FailurePolicy::parse`). -/
def ofText? (word : String) : Option FailurePolicy :=
  [failFast, continue_, ignore].find? (·.text = word)

end FailurePolicy

/-- What a pipe does with its input (`PipeOperator`). -/
inductive PipeOperator
  | map
  | filter
  | reduce
  | pmap
deriving DecidableEq, Repr

namespace PipeOperator

/-- The word for an operator (`PipeOperator::as_str`). -/
def text : PipeOperator → String
  | map => "map"
  | filter => "filter"
  | reduce => "reduce"
  | pmap => "pmap"

/-- The operator that a word stands for (`PipeOperator::parse`). -/
def ofText? (word : String) : Option PipeOperator :=
  [map, filter, reduce, pmap].find? (·.text = word)

end PipeOperator

/-- The two kinds of loop condition (`LoopConditionKind`). -/
inductive ConditionKind
  | until_
  | while_
deriving DecidableEq, Repr

/-- The word that starts a loop condition (`LoopConditionKind::as_str`). -/
def ConditionKind.keyword : ConditionKind → Keyword
  | .until_ => .until_
  | .while_ => .while_

/-- The condition of a loop (`LoopCondition`). -/
structure LoopCondition where
  kind : ConditionKind
  keyword : Span
  discretion : Discretion
deriving DecidableEq, Repr

/-- The import of a skill (`ImportStatement`). -/
structure Import where
  skill : StringLit
  source : StringLit
  fromKeyword : Span
  span : Span
deriving DecidableEq, Repr

/-- A `throw`, with a message or, inside a handler, without one (`ThrowStatement`). -/
structure Throw where
  message : Option StringLit
  span : Span
deriving DecidableEq, Repr

end ProseLang
