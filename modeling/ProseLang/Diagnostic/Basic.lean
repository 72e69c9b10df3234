import ProseLang.Diagnostic.Code
import ProseLang.Diagnostic.FileSpan
import ProseLang.Diagnostic.Severity

/-!
# Diagnostics

A diagnostic is one reportable problem: a severity, a message, the code it is listed under, the
places it concerns, and notes attached to it.
-/

namespace ProseLang

/-- A reportable problem with its places and the notes beneath it (`Diagnostic`). -/
structure Diagnostic where
  severity : Severity
  code : Option String
  message : String
  marks : Marks := {}
  children : List Diagnostic := []

namespace Diagnostic

/-- Whether a program with this diagnostic is refused (`Diagnostic::is_error`). -/
def isError (d : Diagnostic) : Bool := d.severity.blocks

/-- The family of the diagnostic's code (`Diagnostic::category`). -/
def category? (d : Diagnostic) : Option Category := d.code.bind Category.ofText?

/-- The diagnostic with one more label. -/
def mark (d : Diagnostic) (style : LabelStyle) (span : FileSpan) (message : String) :
    Diagnostic :=
  { d with marks := d.marks.add style span message }

end Diagnostic

end ProseLang
