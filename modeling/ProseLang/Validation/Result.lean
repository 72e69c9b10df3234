import ProseLang.Text.Search
import ProseLang.Validation.Check

/-!
# Validation

`validate` gives everything that a program can be criticised for, errors and warnings apart, each
in the order of the text. A program without errors is valid.
-/

namespace ProseLang

/-- What validation found, in the order of the text (`ValidationResult`). -/
structure ValidationResult where
  errors : List Finding
  warnings : List Finding

namespace ValidationResult

/-- Whether a program is valid; warnings do not count. -/
def isValid (r : ValidationResult) : Bool := r.errors.isEmpty

/-- All findings in the order of the text; errors come before warnings at the same place
(`ValidationResult::diagnostics`). -/
def findings (r : ValidationResult) : List Finding :=
  (r.errors ++ r.warnings).mergeSort fun a b ↦ a.span.start.offset ≤ b.span.start.offset

end ValidationResult

/-- The words that mark a comment as a reminder. -/
def todoMarkers : List String := ["TODO", "FIXME"]

/-- The findings about comments that are reminders (`Checker::check_comments`). -/
def commentFindings (comments : List Comment) : List Finding :=
  comments.filterMap fun c ↦
    (todoMarkers.find? fun marker ↦ occursIn marker.toList c.text.toList).map fun marker ↦
      ⟨.todoComment marker, c.span⟩

/-- Whether one place starts before another or, at the same start, ends no later. -/
def Span.inOrder (a b : Span) : Bool :=
  a.start.offset < b.start.offset
    || (a.start.offset = b.start.offset && a.stop.offset ≤ b.stop.offset)

/-- Every finding about a program, in the order in which they are made
(`Checker::check_program`). -/
def rawFindings (p : Program) (options : ValidatorOptions)
    (enumeration : Enumeration := .declared) : List Finding :=
  let k : Knowledge := ⟨options, .ofProgram p, enumeration⟩
  let start := k.definitions.findings
    ++ if options.warnOnTodoComments then commentFindings p.comments else []
  let (_, s) := (Check.statements k {} [] p.statements).run { scopes := [[]], findings := start }
  s.findings ++ Check.unusedFindings k (s.scopes.headD [])

/-- Validates a program (`validate_with`). -/
def validate (p : Program) (options : ValidatorOptions) (enumeration : Enumeration := .declared) :
    ValidationResult :=
  let findings := (rawFindings p options enumeration).mergeSort fun a b ↦ a.span.inOrder b.span
  { errors := findings.filter Finding.isError, warnings := findings.filter (!·.isError) }

end ProseLang
