import ProseLang.Diagnostic.Rendering
import ProseLang.Grammar.Parsing
import ProseLang.Validation.Result

/-!
# Reports

`check` reads a file and gives everything that is wrong with it as diagnostics. A program that could
not be read as a whole is not validated.
-/

namespace ProseLang

/-- Everything found in one file (`CheckReport`). -/
structure Report where
  file : String
  program : Program
  diagnostics : List Diagnostic

namespace Report

/-- Whether there are no errors (`CheckReport::is_valid`). -/
def isValid (r : Report) : Bool := !r.diagnostics.any Diagnostic.isError

/-- The diagnostics that are errors (`CheckReport::errors`). -/
def errors (r : Report) : List Diagnostic := r.diagnostics.filter Diagnostic.isError

/-- The diagnostics that are not (`CheckReport::warnings`). -/
def warnings (r : Report) : List Diagnostic := r.diagnostics.filter (!·.isError)

/-- The diagnostics on one line each (`CheckReport::render_short`). -/
def short (r : Report) (source : String) : List String :=
  let sources := Sources.add {} r.file source
  r.diagnostics.map fun d ↦ renderShort d sources

end Report

/-- A span within a file (`source_span`). -/
def Span.inFile (s : Span) (file : String) : FileSpan := .ofRange file s.start.offset s.stop.offset

/-- A diagnostic of one place in a file (`error_diagnostic`). -/
def Diagnostic.ofSpan (file : String) (severity : Severity) (code : Code) (message : String)
    (s : Span) : Diagnostic :=
  Diagnostic.mark { severity, code := some code.text, message } .primary (s.inFile file) ""

/-- A lexical error as a diagnostic (`error_diagnostic`). -/
def LexError.diagnostic (e : LexError) (file : String) : Diagnostic :=
  .ofSpan file .error e.fault.code e.fault.message e.span

/-- A grammar error as a diagnostic (`error_diagnostic`). -/
def ParseError.diagnostic (e : ParseError) (file : String) : Diagnostic :=
  .ofSpan file .error e.fault.code e.fault.message e.span

/-- A finding as a diagnostic (`validation_diagnostic`). -/
def Finding.diagnostic (f : Finding) (file : String) : Diagnostic :=
  f.issue.related.foldl (fun d r ↦ d.mark .secondary (r.1.inFile file) r.2)
    (.ofSpan file f.severity f.issue.code f.issue.message f.span)

/-- Checks a file (`check_with`). -/
def check (file source : String) (options : ValidatorOptions) : Report :=
  let parsed := parse source
  let findings := if parsed.hasErrors then [] else (validate parsed.program options).findings
  { file
    program := parsed.program
    diagnostics := parsed.lexErrors.map (·.diagnostic file) ++ parsed.errors.map (·.diagnostic file)
      ++ findings.map (·.diagnostic file) }

end ProseLang
