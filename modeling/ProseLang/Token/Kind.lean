import ProseLang.Diagnostic.Code
import ProseLang.Token.Keyword
import ProseLang.Token.Literal

/-!
# Tokens

The tokens that a program is made of, and the faults found while reading them. Four kinds of token
stand for layout and have no text of their own: the end of a logical line, the start and the end
of an indented block, and the end of the file.
-/

namespace ProseLang

/-- Operators and delimiters (`TokenKind`). -/
inductive Punctuation
  | arrow
  | pipe
  | equals
  | colon
  | comma
  | leftParen
  | rightParen
  | leftBracket
  | rightBracket
  | leftBrace
  | rightBrace
deriving DecidableEq, Repr, Inhabited

namespace Punctuation

/-- The text of an operator or delimiter. -/
def text : Punctuation → String
  | arrow => "->"
  | pipe => "|"
  | equals => "="
  | colon => ":"
  | comma => ","
  | leftParen => "("
  | rightParen => ")"
  | leftBracket => "["
  | rightBracket => "]"
  | leftBrace => "\x7b"
  | rightBrace => "\x7d"

/-- Whether the delimiter opens a bracket. -/
def opens : Punctuation → Bool
  | leftParen | leftBracket | leftBrace => true
  | _ => false

/-- Whether the delimiter closes a bracket. -/
def closes : Punctuation → Bool
  | rightParen | rightBracket | rightBrace => true
  | _ => false

/-- The delimiter or operator of one character. -/
def ofChar? : Char → Option Punctuation
  | '|' => some pipe
  | '=' => some equals
  | ':' => some colon
  | ',' => some comma
  | '(' => some leftParen
  | ')' => some rightParen
  | '[' => some leftBracket
  | ']' => some rightBracket
  | '\x7b' => some leftBrace
  | '\x7d' => some rightBrace
  | _ => none

end Punctuation

/-- What a token is (`TokenKind`). -/
inductive TokenKind
  | keyword (word : Keyword)
  | symbol (mark : Punctuation)
  | number (digits : String)
  | string (literal : StringLiteral)
  | discretion (literal : DiscretionLiteral)
  | identifier (name : String)
  | comment (text : String)
  /-- The end of a logical line. -/
  | newline
  /-- The start of an indented block. -/
  | indent
  /-- The end of an indented block. -/
  | dedent
  | endOfFile
  /-- Text that is no token. -/
  | invalid
deriving DecidableEq, Repr

namespace TokenKind

/-- How a token is named in a message (`TokenKind::fmt`). -/
def describe : TokenKind → String
  | keyword word => "'" ++ word.text ++ "'"
  | symbol mark => "'" ++ mark.text ++ "'"
  | number digits => "number " ++ digits
  | string literal => "string " ++ literal.raw
  | discretion literal => "discretion " ++ literal.raw
  | identifier name => "identifier '" ++ name ++ "'"
  | comment _ => "comment"
  | newline => "end of line"
  | indent => "indentation"
  | dedent => "end of block"
  | endOfFile => "end of file"
  | invalid => "invalid input"

/-- Whether the token stands for layout (`TokenKind::is_layout`). -/
def isLayout : TokenKind → Bool
  | newline | indent | dedent | endOfFile => true
  | _ => false

/-- Whether the token is a comment (`TokenKind::is_comment`). -/
def isComment : TokenKind → Bool
  | comment _ => true
  | _ => false

end TokenKind

/-- A token with its place (`Token`). -/
structure Token where
  kind : TokenKind
  span : Span
deriving DecidableEq, Repr

/-- What can be wrong with a text before it is looked at as a program (`LexError`). -/
inductive LexFault
  | unexpectedCharacter (c : Char)
  | unterminatedString
  | unterminatedDiscretion (multiline : Bool)
  | invalidEscape (sequence : String)
  | tabIndentation
  | inconsistentDedent
deriving DecidableEq, Repr

namespace LexFault

/-- The text of a fault (`LexError`). -/
def message : LexFault → String
  | unexpectedCharacter c => "unexpected character '" ++ String.singleton c ++ "'"
  | unterminatedString => "unterminated string literal"
  | unterminatedDiscretion multiline =>
    "unterminated discretion span - expected closing '"
      ++ String.ofList (discretionMarker multiline) ++ "'"
  | invalidEscape sequence => "invalid escape sequence '" ++ sequence ++ "'"
  | tabIndentation => "tab character in indentation - indent with spaces only"
  | inconsistentDedent => "unindent does not match any outer indentation level"

/-- The code a fault is listed under (`LexError::code`). -/
def code : LexFault → Code
  | unexpectedCharacter _ => .unexpectedCharacter
  | unterminatedString => .unterminatedString
  | unterminatedDiscretion _ => .unterminatedDiscretion
  | invalidEscape _ => .invalidEscape
  | tabIndentation => .tabIndentation
  | inconsistentDedent => .inconsistentDedent

end LexFault

/-- A fault with its place (`LexError`). -/
structure LexError where
  fault : LexFault
  span : Span
deriving DecidableEq, Repr

end ProseLang
