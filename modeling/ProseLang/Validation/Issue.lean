import ProseLang.Diagnostic.Code
import ProseLang.Diagnostic.Severity
import ProseLang.Text.Position

/-!
# Issues

What a program can be criticised for once it has been read. An `Issue` is a cause; its code, its
severity, its wording and the other places that it involves all follow from it. Main statement:
the severity of an issue is that of its code (`Issue.severity_eq_of_code_eq`).
-/

namespace ProseLang

/-- Where an unbound name is used. -/
inductive NameUse
  | value
  | context
  | interpolation
deriving DecidableEq, Repr

/-- The words that a message adds for the use of a name. -/
def NameUse.suffix : NameUse → String
  | value => ""
  | context => " in context"
  | interpolation => " in string interpolation"

/-- What owns properties. -/
inductive PropertyOwner
  | agent
  | session
deriving DecidableEq, Repr

/-- The name of an owner in a message. -/
def PropertyOwner.text : PropertyOwner → String
  | agent => "agent"
  | session => "session"

/-- What a program can be criticised for. -/
inductive Issue
  | duplicateAgent (name : String) (first : Span)
  | duplicateBlock (name : String) (first : Span)
  | duplicateImport (skill : String) (first : Span)
  | duplicateParameter (name : String) (first : Span)
  | duplicateBinding (name : String) (first : Span)
  | shadowedBinding (name : String) (outer : Span)
  | unusedBinding (name : String)
  | todoComment (marker : String)
  | importNotAtTop
  | unresolvedSkill (skill : String)
  | agentNaming (name : String)
  | unknownModel (model : String)
  | undefinedSkill (skill : String)
  | unknownProperty (owner : PropertyOwner) (key : String)
  | unknownPermission (key : String) (known : List String)
  | wrongPermission (key : String)
  | sessionWithoutPrompt
  | undefinedAgent (name : String)
  | zeroRetry
  | unknownBackoff (strategy : String) (known : List String)
  | unknownJoin (strategy : String) (known : List String)
  | unknownFailurePolicy (policy : String) (known : List String)
  | countWithoutAny
  | zeroCount
  | conflictingFailurePolicy
  | emptyParallel
  | zeroRepeat
  | unboundedLoop
  | throwOutsideCatch
  | undefinedBlock (name : String)
  | wrongArity (name : String) (expected got : Nat)
  | undefinedVariable (name : String) (use : NameUse)
  | undeclaredAssignment (name : String)
  | constAssignment (name : String) (declared : Span)
  | sessionAssignment (name : String) (declared : Span)
deriving DecidableEq, Repr

namespace Issue

/-- The code an issue is listed under. -/
def code : Issue → Code
  | duplicateAgent _ _ => .duplicateAgent
  | duplicateBlock _ _ => .duplicateBlock
  | duplicateImport _ _ => .duplicateImport
  | duplicateParameter _ _ => .duplicateParameter
  | duplicateBinding _ _ => .duplicateBinding
  | shadowedBinding _ _ => .shadowedBinding
  | unusedBinding _ => .unusedBinding
  | todoComment _ => .todoComment
  | importNotAtTop => .importNotAtTop
  | unresolvedSkill _ => .unresolvedSkill
  | agentNaming _ => .agentNaming
  | unknownModel _ => .unknownModel
  | undefinedSkill _ => .undefinedSkill
  | unknownProperty _ _ => .unknownProperty
  | unknownPermission _ _ | wrongPermission _ => .invalidPermission
  | sessionWithoutPrompt => .sessionWithoutPrompt
  | undefinedAgent _ => .undefinedAgent
  | zeroRetry => .invalidRetry
  | unknownBackoff _ _ => .invalidBackoff
  | unknownJoin _ _ => .invalidJoinStrategy
  | unknownFailurePolicy _ _ => .invalidFailurePolicy
  | countWithoutAny => .countWithoutAny
  | zeroCount => .invalidCount
  | conflictingFailurePolicy => .conflictingFailurePolicy
  | emptyParallel => .emptyParallel
  | zeroRepeat => .zeroRepeat
  | unboundedLoop => .unboundedLoop
  | throwOutsideCatch => .throwOutsideCatch
  | undefinedBlock _ => .undefinedBlock
  | wrongArity _ _ _ => .arityMismatch
  | undefinedVariable _ _ => .undefinedVariable
  | undeclaredAssignment _ => .undeclaredAssignment
  | constAssignment _ _ | sessionAssignment _ _ => .constReassignment

/-- How serious an issue is: matters of style are warnings. -/
def severity : Issue → Severity
  | duplicateImport _ _ | shadowedBinding _ _ | unusedBinding _ | todoComment _ | agentNaming _
  | zeroRepeat | unboundedLoop => .warning
  | _ => .error

/-- What a name is not one of. -/
def expectedOneOf (known : List String) : String :=
  "; expected one of " ++ String.intercalate ", " known

/-- The text of an issue. -/
def message : Issue → String
  | duplicateAgent name _ => "duplicate agent name '" ++ name ++ "'"
  | duplicateBlock name _ => "duplicate block name '" ++ name ++ "'"
  | duplicateImport skill _ => "skill '" ++ skill ++ "' is imported more than once"
  | duplicateParameter name _ => "duplicate parameter '" ++ name ++ "'"
  | duplicateBinding name _ => "duplicate binding '" ++ name ++ "'"
  | shadowedBinding name _ => "'" ++ name ++ "' shadows an outer binding"
  | unusedBinding name => "'" ++ name ++ "' is never used"
  | todoComment marker => "comment contains " ++ marker
  | importNotAtTop => "import statements must appear at the top of the file"
  | unresolvedSkill skill => "skill '" ++ skill ++ "' could not be resolved"
  | agentNaming name => "agent name '" ++ name ++ "' should be snake_case or kebab-case"
  | unknownModel model => "unknown model '" ++ model ++ "'"
  | undefinedSkill skill => "undefined skill '" ++ skill ++ "'"
  | unknownProperty owner key => "unknown " ++ owner.text ++ " property '" ++ key ++ "'"
  | unknownPermission key known => "unknown permission '" ++ key ++ "'" ++ expectedOneOf known
  | wrongPermission key =>
    "invalid value for permission '" ++ key
      ++ "'; expected allow, deny, prompt or a list of patterns"
  | sessionWithoutPrompt => "session requires a prompt or an agent"
  | undefinedAgent name => "undefined agent '" ++ name ++ "'"
  | zeroRetry => "retry must be at least 1"
  | unknownBackoff strategy known => "invalid backoff '" ++ strategy ++ "'" ++ expectedOneOf known
  | unknownJoin strategy known =>
    "invalid join strategy '" ++ strategy ++ "'" ++ expectedOneOf known
  | unknownFailurePolicy policy known =>
    "invalid on-fail policy '" ++ policy ++ "'" ++ expectedOneOf known
  | countWithoutAny => "'count' requires the \"any\" join strategy"
  | zeroCount => "count must be at least 1"
  | conflictingFailurePolicy =>
    "on-fail \"fail-fast\" conflicts with the \"regardless\" join strategy"
  | emptyParallel => "parallel block must not be empty"
  | zeroRepeat => "repeat 0 never runs its body"
  | unboundedLoop => "loop has no condition and no max; it only ends through an error"
  | throwOutsideCatch => "'throw' without a message is only allowed inside a catch block"
  | undefinedBlock name => "undefined block '" ++ name ++ "'"
  | wrongArity name expected got =>
    "block '" ++ name ++ "' expects " ++ toString expected ++ " argument"
      ++ (if expected = 1 then "" else "s") ++ ", got " ++ toString got
  | undefinedVariable name use => "undefined variable '" ++ name ++ "'" ++ use.suffix
  | undeclaredAssignment name => "cannot assign to undeclared variable '" ++ name ++ "'"
  | constAssignment name _ => "cannot reassign const binding '" ++ name ++ "'"
  | sessionAssignment name _ => "cannot reassign session result '" ++ name ++ "'"

/-- The other places that an issue involves, with what is there
(`ValidationError::with_related`). -/
def related : Issue → List (Span × String)
  | duplicateAgent _ first | duplicateBlock _ first => [(first, "first defined here")]
  | duplicateImport _ first => [(first, "first imported here")]
  | duplicateParameter _ first | duplicateBinding _ first => [(first, "first bound here")]
  | shadowedBinding _ outer => [(outer, "outer binding")]
  | constAssignment _ declared | sessionAssignment _ declared => [(declared, "declared here")]
  | _ => []

/-- Issues with one code have one severity. -/
theorem severity_eq_of_code_eq {a b : Issue} (h : a.code = b.code) : a.severity = b.severity := by
  have byCode : ∀ i : Issue, i.severity =
      if i.code ∈ [.duplicateImport, .shadowedBinding, .unusedBinding, .todoComment, .agentNaming,
        .zeroRepeat, .unboundedLoop] then .warning else .error := by
    intro i
    cases i <;> rfl
  rw [byCode a, byCode b, h]

end Issue

/-- An issue with its place (`ValidationError`). -/
structure Finding where
  issue : Issue
  span : Span
deriving DecidableEq, Repr

namespace Finding

/-- How serious a finding is. -/
def severity (f : Finding) : Severity := f.issue.severity

/-- Whether a program with this finding is refused (`ValidationError::is_error`). -/
def isError (f : Finding) : Bool := f.severity.blocks

end Finding

end ProseLang
