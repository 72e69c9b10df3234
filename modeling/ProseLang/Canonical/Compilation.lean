import ProseLang.Canonical.Expansion
import ProseLang.Canonical.Printing
import ProseLang.Canonical.Stripping
import ProseLang.Validation.Result

/-!
# Compilation

Compiling a program is bringing it into its canonical form and writing it down. Comments are left
out and handed over on the side, unless they are asked for.
-/

namespace ProseLang

/-- The one form that programs are compiled to (`CANONICAL_TARGET`). -/
def canonicalTarget : String := "canonical"

/-- How to compile (`CompileOptions`). -/
structure CompileOptions where
  /-- The form asked for. -/
  target : Option String := none
  stripComments : Bool := true
  /-- Spaces for each level of indentation; none count as one. -/
  indentWidth : Nat := 2
deriving DecidableEq, Repr

/-- Why a program is not compiled (`CompileError`). -/
inductive CompileError
  | unsupportedTarget (target : String)
  | invalidProgram (errors : List Finding)

namespace CompileError

/-- The text of an error. -/
def message : CompileError → String
  | unsupportedTarget target =>
    "unsupported compile target '" ++ target ++ "'; the only target is \"canonical\""
  | invalidProgram errors => "program has " ++ toString errors.length ++ " validation error(s)"

end CompileError

/-- A compiled program (`CompiledOutput`). -/
structure Compiled where
  program : Program
  text : String
  sourceMap : SourceMap
  strippedComments : List Comment

/-- Compiles a program to a supported target. -/
def compileCanonical (p : Program) (options : CompileOptions) : Compiled :=
  let stripped := if options.stripComments then p.withoutComments else p
  let program := stripped.canonical
  let doc := program.doc options.indentWidth
  { program
    text := doc.render
    sourceMap := doc.sourceMap
    strippedComments := if options.stripComments then p.comments else [] }

/-- Compiles a program (`compile`). -/
def compile (p : Program) (options : CompileOptions) : Except CompileError Compiled :=
  match options.target.filter (· ≠ canonicalTarget) with
  | some target => .error (.unsupportedTarget target)
  | none => .ok (compileCanonical p options)

/-- What a compilation gives is the canonical program, without comments if they are to be left
out. -/
theorem compile_program {p : Program} {options : CompileOptions} {c : Compiled}
    (h : compile p options = .ok c) :
    c.program = (if options.stripComments then p.withoutComments else p).canonical := by
  unfold compile at h
  split at h
  · cases h
  · obtain rfl := Except.ok.inj h
    rfl

/-- What is compiled is the text of the canonical program. -/
theorem compile_doc {p : Program} {options : CompileOptions} {c : Compiled}
    (h : compile p options = .ok c) :
    c.text = (c.program.doc options.indentWidth).render
      ∧ c.sourceMap = (c.program.doc options.indentWidth).sourceMap := by
  unfold compile at h
  split at h
  · cases h
  · obtain rfl := Except.ok.inj h
    exact ⟨rfl, rfl⟩

/-- Compiles a program that has to be valid (`compile_checked`). -/
def compileChecked (p : Program) (options : CompileOptions) (validation : ValidatorOptions) :
    Except CompileError Compiled :=
  let r := validate p validation
  if r.isValid then compile p options else .error (.invalidProgram r.errors)

end ProseLang
