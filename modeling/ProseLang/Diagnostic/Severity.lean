/-!
# Severity
-/

namespace ProseLang

/-- How serious a diagnostic is (`Severity`). -/
inductive Severity
  | error
  | warning
  | note
  | help
deriving DecidableEq, Repr, Inhabited

namespace Severity

/-- The word a severity is shown with (`Severity::as_str`). -/
def text : Severity → String
  | error => "error"
  | warning => "warning"
  | note => "note"
  | help => "help"

/-- Whether a program with such a diagnostic is refused; all but errors are advice
(`Severity::blocks_compilation`). -/
def blocks : Severity → Bool
  | error => true
  | _ => false

/-- The number by which an editor knows the severity (`Severity::to_lsp_severity`). -/
def rank : Severity → Nat
  | error => 1
  | warning => 2
  | note => 3
  | help => 4

end Severity

end ProseLang
