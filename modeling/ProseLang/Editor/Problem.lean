import ProseLang.Grammar.Parsing
import ProseLang.Validation.Result

/-!
# Problems shown in an editor

What is wrong with a program, in the form in which editors list it. Editors count lines from zero
and columns in UTF-16 units.
-/

namespace ProseLang

/-- A point of a text as editors count. -/
structure EditorPoint where
  line : Nat
  character : Nat
deriving DecidableEq, Repr

/-- A stretch of a text as editors count. -/
structure EditorRange where
  start : EditorPoint
  stop : EditorPoint
deriving DecidableEq, Repr

namespace EditorRange

/-- A span as editors count (`to_range`). -/
def ofSpan (s : Span) : EditorRange :=
  ⟨⟨s.start.line - 1, s.start.column⟩, ⟨s.stop.line - 1, s.stop.column⟩⟩

end EditorRange

/-- A problem as an editor lists it. -/
structure Problem where
  range : EditorRange
  severity : Severity
  code : Code
  message : String
  /-- Other places that are involved, with what is there. -/
  related : List (EditorRange × String) := []
deriving DecidableEq, Repr

namespace Problem

/-- The name of the tool that problems are listed under (`SOURCE`). -/
def source : String := "openprose"

/-- A lexical error as a problem (`DiagnosticConverter::lex_error`). -/
def ofLexError (e : LexError) : Problem :=
  ⟨.ofSpan e.span, .error, e.fault.code, e.fault.message, []⟩

/-- A grammar error as a problem (`DiagnosticConverter::parse_error`). -/
def ofParseError (e : ParseError) : Problem :=
  ⟨.ofSpan e.span, .error, e.fault.code, e.fault.message, []⟩

/-- A finding as a problem (`DiagnosticConverter::validation_error`). -/
def ofFinding (f : Finding) : Problem :=
  ⟨.ofSpan f.span, f.severity, f.issue.code, f.issue.message,
    f.issue.related.map fun r ↦ (.ofSpan r.1, r.2)⟩

/-- Every problem of a program: lexical errors, grammar errors, and what validation found if the
program was validated (`DiagnosticConverter::convert_all`). -/
def all (p : Parsed) (validation : Option ValidationResult) : List Problem :=
  p.lexErrors.map ofLexError ++ p.errors.map ofParseError
    ++ ((validation.map ValidationResult.findings).getD []).map ofFinding

end Problem

end ProseLang
