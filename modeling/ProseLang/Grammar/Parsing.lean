import ProseLang.Grammar.Statement
import ProseLang.Token.Layout

/-!
# From text to program

`parse` reads a source text, `parseTokens` a list of tokens of any provenance. Comments are set
aside first: every comment is recorded in the program, and those on lines of their own are also
statements. There is always a program; what could not be read is missing from it and reported.
-/

namespace ProseLang

/-- A program with everything found wrong while reading it (`ParseOutput`). -/
structure Parsed where
  program : Program
  errors : List ParseError
  lexErrors : List LexError

namespace Parsed

/-- Whether anything was found wrong (`ParseOutput::has_errors`). -/
def hasErrors (p : Parsed) : Bool := !p.errors.isEmpty || !p.lexErrors.isEmpty

end Parsed

/-- Whether a comment after a token of this kind stands on a line of its own. -/
def TokenKind.beforeOwnLine : TokenKind → Bool
  | newline | indent | dedent | comment _ => true
  | _ => false

/-- The tokens without the comments at the ends of lines; `previous` is the last token kept
(`split_comments`). -/
def withoutTrailingComments (previous : Option TokenKind) : List Token → List Token
  | [] => []
  | t :: rest =>
    if t.kind.isComment && previous.any (!·.beforeOwnLine) then
      withoutTrailingComments previous rest
    else t :: withoutTrailingComments (some t.kind) rest

/-- The comments among tokens, in the order of their places (`split_comments`). -/
def commentsOf (tokens : List Token) : List Comment :=
  (tokens.filterMap fun
    | ⟨.comment text, span⟩ => some ⟨text, span⟩
    | _ => none).mergeSort fun a b ↦ a.span.start.offset ≤ b.span.start.offset

/-- The cursor at the start of some tokens (`Parser::from_tokens`). Without an end of the file among
them, the file ends right after the last. -/
def Cursor.ofTokens (tokens : List Token) : Cursor where
  rest := tokens.takeWhile (·.kind ≠ .endOfFile)
  final := (tokens.find? (·.kind = .endOfFile)).getD
    ⟨.endOfFile, .point ((tokens.getLast?.map (·.span.stop)).getD ⟨0, 0, 0⟩)⟩
  rejected := (tokens.filter (·.kind = .invalid)).map Token.span

/-- Reads a program from tokens (`parse_tokens`). -/
def parseTokens (tokens : List Token) : Parsed :=
  let c := Cursor.ofTokens (withoutTrailingComments none tokens)
  let g := Nested.upTo (c.rest.length + 1)
  let (statements, c') := Parser.statements (g.statement true) false c
  { program :=
      { statements, comments := commentsOf tokens
        span := ⟨c.current.span.start, c'.current.span.stop⟩ }
    errors := c'.errors
    lexErrors := [] }

/-- Reads a program from source text (`parse`). -/
def parse (source : String) : Parsed :=
  let out := tokenize source
  { parseTokens out.tokens with lexErrors := out.errors }

end ProseLang
