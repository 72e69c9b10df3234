/-!
# Reserved words

The words that cannot be used as names. Main statement: a reserved word is read back from its text
(`Keyword.ofText?_text`).
-/

namespace ProseLang

/-- A reserved word (`TokenKind`). -/
inductive Keyword
  | agent
  | session
  | let_
  | const
  | import_
  | from_
  | block
  | do_
  | parallel
  | repeat_
  | for_
  | in_
  | as_
  | loop
  | until_
  | while_
  | try_
  | catch_
  | finally_
  | throw
  | choice
  | option
  | if_
  | elif
  | else_
deriving DecidableEq, Repr, Inhabited

namespace Keyword

/-- Every reserved word, in order of declaration (`KEYWORDS`). -/
def all : List Keyword :=
  [.agent, .session, .let_, .const, .import_, .from_, .block, .do_, .parallel, .repeat_, .for_,
   .in_, .as_, .loop, .until_, .while_, .try_, .catch_, .finally_, .throw, .choice, .option,
   .if_, .elif, .else_]

/-- The text of a reserved word (`TokenKind::keyword_text`). -/
def text : Keyword → String
  | agent => "agent"
  | session => "session"
  | let_ => "let"
  | const => "const"
  | import_ => "import"
  | from_ => "from"
  | block => "block"
  | do_ => "do"
  | parallel => "parallel"
  | repeat_ => "repeat"
  | for_ => "for"
  | in_ => "in"
  | as_ => "as"
  | loop => "loop"
  | until_ => "until"
  | while_ => "while"
  | try_ => "try"
  | catch_ => "catch"
  | finally_ => "finally"
  | throw => "throw"
  | choice => "choice"
  | option => "option"
  | if_ => "if"
  | elif => "elif"
  | else_ => "else"

/-- The reserved word that is written so (`keyword_table`). -/
def ofText? (text : String) : Option Keyword := all.find? (·.text = text)

/-- The list leaves no reserved word out. -/
theorem mem_all (k : Keyword) : k ∈ all := by
  cases k <;> decide

/-- A reserved word is read back from its text. -/
theorem ofText?_text (k : Keyword) : ofText? k.text = some k := by
  cases k <;> decide

end Keyword

/-- Whether a word is reserved (`is_keyword`). -/
def isKeyword (word : String) : Bool := (Keyword.ofText? word).isSome

end ProseLang
