import ProseLang.Token.Lexeme

/-!
# Layout

Lines and indentation become tokens. A logical line ends in a `newline` token; a line indented
further than the one before opens a block with `indent`, and every block that a line leaves is
closed with `dedent`. Line breaks inside brackets count for nothing, nor do lines without a token,
and a line that starts with a bar continues the one before.

Comments on lines of their own are held back until the next line has opened or closed its blocks.
Main statement: `runLayout_append`, by which the tokens of a stretch of lexemes come before those
of what follows.
-/

namespace ProseLang

/-- Tokens in order, with the faults met on the way (`LexOutput`). -/
structure Tokenized where
  tokens : List Token := []
  errors : List LexError := []
deriving DecidableEq, Repr

namespace Tokenized

/-- One output after another. -/
def append (a b : Tokenized) : Tokenized := ⟨a.tokens ++ b.tokens, a.errors ++ b.errors⟩

instance : Append Tokenized where append := append

/-- Output of tokens alone. -/
def ofTokens (tokens : List Token) : Tokenized := { tokens }

/-- The tokens of two stretches are those of the first and then those of the second. -/
@[simp] theorem tokens_append (a b : Tokenized) : (a ++ b).tokens = a.tokens ++ b.tokens := rfl

/-- The errors of two stretches are those of the first and then those of the second. -/
@[simp] theorem errors_append (a b : Tokenized) : (a ++ b).errors = a.errors ++ b.errors := rfl

end Tokenized

/-- What the layout of the next lexeme depends on (`Layout`). -/
structure Layout where
  /-- The widths of the open blocks, innermost first. -/
  indents : List Nat := []
  /-- The number of open brackets. -/
  depth : Nat := 0
  /-- Whether the current logical line has a token. -/
  hasContent : Bool := false
  /-- The end of the previous line, while it is not certain that the line ends there. -/
  pending : Option Span := none
  /-- Comments that wait for the next line. -/
  held : List Token := []
  /-- The start of the current physical line. -/
  lineStart : Position := .start
  /-- The blanks at the start of the current physical line. -/
  lead : List Char := []
deriving Repr

namespace Layout

/-- The width of the innermost open block (`Layout::top`). -/
def width (s : Layout) : Nat := s.indents.headD 0

/-- The tokens that close `n` blocks at `p` (`Layout::dedent_to`). -/
def dedents (n : Nat) (p : Position) : List Token := List.replicate n ⟨.dedent, .point p⟩

/-- The place of the first tab among the blanks that start the line. -/
def leadTab? (s : Layout) : Option Span :=
  (s.lead.findIdx? (· = '\t')).map fun i ↦
    let p := s.lineStart.after (s.lead.take i)
    ⟨p, p.advance '\t'⟩

/-- Starts a logical line with a token at `p` (`Layout::start_line`). A tab in the indentation is a
fault, and the line then stays at the level of the innermost block. -/
def startLine (s : Layout) (isPipe : Bool) (p : Position) : Layout × Tokenized :=
  let tab := s.leadTab?
  let tabErrors := tab.toList.map fun span ↦ ⟨.tabIndentation, span⟩
  let width := if tab.isSome then s.width else s.lead.length
  let closed := (s.indents.takeWhile (width < ·)).length
  let kept := s.indents.dropWhile (width < ·)
  if isPipe && s.pending.isSome then
    ({ s with indents := kept, pending := none, held := [] },
      ⟨s.held ++ dedents closed p, tabErrors⟩)
  else
    let ended := s.pending.toList.map fun span ↦ ⟨.newline, span⟩
    if s.width < width then
      ({ s with indents := width :: s.indents, pending := none, held := [] },
        ⟨ended ++ ⟨.indent, ⟨s.lineStart, p⟩⟩ :: s.held, tabErrors⟩)
    else
      let misfit := if kept.headD 0 = width then []
        else [⟨.inconsistentDedent, ⟨s.lineStart, p⟩⟩]
      ({ s with indents := kept, pending := none, held := [] },
        ⟨ended ++ dedents closed p ++ s.held, tabErrors ++ misfit⟩)

/-- Takes in a token (`Layout::token`). -/
def token (s : Layout) (kind : TokenKind) (span : Span) : Layout × Tokenized :=
  let (s, before) :=
    if s.depth = 0 && !s.hasContent then s.startLine (kind = .symbol .pipe) span.start
    else (s, {})
  let depth := match kind with
    | .symbol mark =>
      if mark.opens then s.depth + 1 else if mark.closes then s.depth - 1 else s.depth
    | _ => s.depth
  ({ s with depth, hasContent := true }, before ++ .ofTokens [⟨kind, span⟩])

/-- Takes in a line break (`Layout::newline`). -/
def lineBreak (s : Layout) (span : Span) : Layout :=
  let s := { s with lineStart := span.stop, lead := [] }
  if 0 < s.depth || !s.hasContent then s
  else { s with pending := some span, hasContent := false }

/-- Takes in a comment (`Layout::comment`). -/
def comment (s : Layout) (text : String) (span : Span) : Layout × Tokenized :=
  let token : Token := ⟨.comment text, span⟩
  if s.hasContent || 0 < s.depth then (s, .ofTokens [token])
  else ({ s with held := s.held ++ [token] }, {})

/-- Takes in a token after faults found within it. -/
def faultyToken (s : Layout) (errors : List LexError) (kind : TokenKind) (span : Span) :
    Layout × Tokenized :=
  let (s, out) := s.token kind span
  (s, ⟨[], errors⟩ ++ out)

/-- Takes in a lexeme (`Lexer::tokenize`). -/
def step (s : Layout) (l : LexemeAt) : Layout × Tokenized :=
  match l.lexeme with
  | .blank => ({ s with lead := l.text }, {})
  | .lineBreak => (s.lineBreak l.span, {})
  | .comment => s.comment (String.ofList l.text) l.span
  | .number => s.token (.number (String.ofList l.text)) l.span
  | .word (some reserved) => s.token (.keyword reserved) l.span
  | .word none => s.token (.identifier (String.ofList l.text)) l.span
  | .symbol mark => s.token (.symbol mark) l.span
  | .quoted triple body =>
    let literal := StringLiteral.decode l.span.start triple body
    let errors := literal.invalidEscapes.map fun e ↦ ⟨.invalidEscape e.sequence, e.span⟩
    s.faultyToken errors (.string literal) l.span
  | .discretion multiline body => s.token (.discretion (.ofBody multiline body)) l.span
  | .faulty fault => s.faultyToken [⟨fault, l.span⟩] .invalid l.span

/-- Ends the text at `p`: the last line, then every open block (`Layout::finish`). -/
def finish (s : Layout) (p : Position) : List Token :=
  let ended : List Token := match s.pending with
    | some span => [⟨.newline, span⟩]
    | none => if s.hasContent then [⟨.newline, .point p⟩] else []
  ended ++ dedents s.indents.length p ++ s.held ++ [⟨.endOfFile, .point p⟩]

end Layout

/-- The layout after some lexemes, with the output they give. -/
def runLayout (s : Layout) : List LexemeAt → Layout × Tokenized
  | [] => (s, {})
  | l :: ls =>
    let (s, out) := s.step l
    let (s, rest) := runLayout s ls
    (s, out ++ rest)

/-- The tokens of a text, layout tokens and comments included (`Lexer::tokenize`). The last one is
`endOfFile`. -/
def tokenizeChars (text : List Char) : Tokenized :=
  let (s, out) := runLayout {} (lexemes .start text)
  out ++ .ofTokens (s.finish (Position.start.after text))

/-- The tokens of a source text (`tokenize`). -/
def tokenize (source : String) : Tokenized := tokenizeChars source.toList

/-- The tokens of a source text without comments (`Lexer::tokenize_filtered`). -/
def tokenizeCode (source : String) : Tokenized :=
  let out := tokenize source
  { out with tokens := out.tokens.filter (!·.kind.isComment) }

private theorem Tokenized.append_assoc (a b c : Tokenized) : a ++ b ++ c = a ++ (b ++ c) := by
  change Tokenized.append (Tokenized.append a b) c = Tokenized.append a (Tokenized.append b c)
  simp [Tokenized.append]

/-- The output of two stretches of lexemes, one after the other. -/
theorem runLayout_append (s : Layout) (a b : List LexemeAt) :
    runLayout s (a ++ b) =
      ((runLayout (runLayout s a).1 b).1,
        (runLayout s a).2 ++ (runLayout (runLayout s a).1 b).2) := by
  induction a generalizing s with
  | nil => rfl
  | cons l a ih => simp [runLayout, ih, Tokenized.append_assoc]

end ProseLang
