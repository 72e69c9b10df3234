/-!
# Codes of the findings

Every finding carries a code: `P` and four digits, of which the first names the family.

| Codes | Family |
|-------|--------|
| P1xxx | lexical |
| P2xxx | grammar |
| P3xxx | names and references |
| P4xxx | program structure |
| P5xxx | property values |
| P6xxx | style warnings |

Main statements: the listed codes are pairwise different (`Code.text_injective`) and each belongs to
a family (`Category.ofText?_text`).
-/

namespace ProseLang

/-- What a finding is about. -/
inductive Code
  | unexpectedCharacter
  | unterminatedString
  | unterminatedDiscretion
  | invalidEscape
  | tabIndentation
  | inconsistentDedent
  | unexpectedToken
  | expectedIndentedBlock
  | unexpectedIndent
  | strayProperty
  | bareModifierValue
  | unknownModifier
  | invalidPropertyValue
  | duplicateProperty
  | invalidNumber
  | missingHandler
  | undefinedVariable
  | undefinedAgent
  | undefinedSkill
  | undefinedBlock
  | duplicateAgent
  | duplicateBlock
  | duplicateBinding
  | undeclaredAssignment
  | constReassignment
  | unresolvedSkill
  | duplicateParameter
  | emptyParallel
  | importNotAtTop
  | sessionWithoutPrompt
  | arityMismatch
  | throwOutsideCatch
  | conflictingFailurePolicy
  | countWithoutAny
  | unknownModel
  | invalidRetry
  | invalidBackoff
  | unknownProperty
  | invalidPermission
  | invalidJoinStrategy
  | invalidFailurePolicy
  | invalidCount
  | shadowedBinding
  | unusedBinding
  | todoComment
  | agentNaming
  | duplicateImport
  | zeroRepeat
  | unboundedLoop
deriving DecidableEq, Repr, Inhabited

namespace Code

/-- Every code, in numerical order (`ALL`). -/
def all : List Code :=
  [.unexpectedCharacter, .unterminatedString, .unterminatedDiscretion, .invalidEscape,
   .tabIndentation, .inconsistentDedent, .unexpectedToken, .expectedIndentedBlock,
   .unexpectedIndent, .strayProperty, .bareModifierValue, .unknownModifier,
   .invalidPropertyValue, .duplicateProperty, .invalidNumber, .missingHandler,
   .undefinedVariable, .undefinedAgent, .undefinedSkill, .undefinedBlock, .duplicateAgent,
   .duplicateBlock, .duplicateBinding, .undeclaredAssignment, .constReassignment,
   .unresolvedSkill, .duplicateParameter, .emptyParallel, .importNotAtTop, .sessionWithoutPrompt,
   .arityMismatch, .throwOutsideCatch, .conflictingFailurePolicy, .countWithoutAny,
   .unknownModel, .invalidRetry, .invalidBackoff, .unknownProperty, .invalidPermission,
   .invalidJoinStrategy, .invalidFailurePolicy, .invalidCount, .shadowedBinding, .unusedBinding,
   .todoComment, .agentNaming, .duplicateImport, .zeroRepeat, .unboundedLoop]

/-- The written form of a code. -/
def text : Code → String
  | unexpectedCharacter => "P1001"
  | unterminatedString => "P1002"
  | unterminatedDiscretion => "P1003"
  | invalidEscape => "P1004"
  | tabIndentation => "P1005"
  | inconsistentDedent => "P1006"
  | unexpectedToken => "P2001"
  | expectedIndentedBlock => "P2002"
  | unexpectedIndent => "P2003"
  | strayProperty => "P2004"
  | bareModifierValue => "P2005"
  | unknownModifier => "P2006"
  | invalidPropertyValue => "P2007"
  | duplicateProperty => "P2008"
  | invalidNumber => "P2009"
  | missingHandler => "P2010"
  | undefinedVariable => "P3001"
  | undefinedAgent => "P3002"
  | undefinedSkill => "P3003"
  | undefinedBlock => "P3004"
  | duplicateAgent => "P3005"
  | duplicateBlock => "P3006"
  | duplicateBinding => "P3007"
  | undeclaredAssignment => "P3008"
  | constReassignment => "P3009"
  | unresolvedSkill => "P3010"
  | duplicateParameter => "P3011"
  | emptyParallel => "P4001"
  | importNotAtTop => "P4002"
  | sessionWithoutPrompt => "P4003"
  | arityMismatch => "P4004"
  | throwOutsideCatch => "P4005"
  | conflictingFailurePolicy => "P4006"
  | countWithoutAny => "P4007"
  | unknownModel => "P5001"
  | invalidRetry => "P5002"
  | invalidBackoff => "P5003"
  | unknownProperty => "P5004"
  | invalidPermission => "P5005"
  | invalidJoinStrategy => "P5006"
  | invalidFailurePolicy => "P5007"
  | invalidCount => "P5008"
  | shadowedBinding => "P6001"
  | unusedBinding => "P6002"
  | todoComment => "P6003"
  | agentNaming => "P6004"
  | duplicateImport => "P6005"
  | zeroRepeat => "P6006"
  | unboundedLoop => "P6007"

/-- One line on what the code stands for. -/
def description : Code → String
  | unexpectedCharacter => "unexpected character"
  | unterminatedString => "unterminated string literal"
  | unterminatedDiscretion => "unterminated discretion marker"
  | invalidEscape => "invalid escape sequence"
  | tabIndentation => "tab used for indentation"
  | inconsistentDedent => "dedent does not match any outer indentation level"
  | unexpectedToken => "unexpected token"
  | expectedIndentedBlock => "expected an indented block"
  | unexpectedIndent => "unexpected indentation"
  | strayProperty => "property outside of an agent or session"
  | bareModifierValue => "modifier value must be quoted"
  | unknownModifier => "unknown modifier"
  | invalidPropertyValue => "property value has the wrong shape"
  | duplicateProperty => "property given more than once"
  | invalidNumber => "number out of range"
  | missingHandler => "try without catch or finally"
  | undefinedVariable => "undefined variable"
  | undefinedAgent => "undefined agent"
  | undefinedSkill => "undefined skill"
  | undefinedBlock => "undefined block"
  | duplicateAgent => "duplicate agent definition"
  | duplicateBlock => "duplicate block definition"
  | duplicateBinding => "duplicate binding in one scope"
  | undeclaredAssignment => "assignment to an undeclared variable"
  | constReassignment => "reassignment of a const binding"
  | unresolvedSkill => "imported skill could not be resolved"
  | duplicateParameter => "duplicate block parameter"
  | emptyParallel => "parallel block without branches"
  | importNotAtTop => "import after other statements"
  | sessionWithoutPrompt => "session without prompt or agent"
  | arityMismatch => "wrong number of block arguments"
  | throwOutsideCatch => "rethrow outside of a catch block"
  | conflictingFailurePolicy => "failure policy conflicts with join strategy"
  | countWithoutAny => "count modifier without the 'any' strategy"
  | unknownModel => "unknown model"
  | invalidRetry => "invalid retry count"
  | invalidBackoff => "invalid backoff strategy"
  | unknownProperty => "unknown property"
  | invalidPermission => "invalid permission entry"
  | invalidJoinStrategy => "invalid join strategy"
  | invalidFailurePolicy => "invalid failure policy"
  | invalidCount => "invalid count"
  | shadowedBinding => "binding shadows an outer binding"
  | unusedBinding => "binding is never used"
  | todoComment => "TODO or FIXME comment"
  | agentNaming => "agent name is not snake_case or kebab-case"
  | duplicateImport => "skill imported more than once"
  | zeroRepeat => "repeat block never runs"
  | unboundedLoop => "loop without condition or max"

/-- The list of codes leaves none out. -/
theorem mem_all (c : Code) : c ∈ all := by
  cases c <;> decide

end Code

/-- The families of codes (`ErrorCategory`). -/
inductive Category
  | lexical
  | grammar
  | reference
  | structural
  | property
  | style
deriving DecidableEq, Repr, Inhabited

namespace Category

/-- The title a family is shown with (`ErrorCategory::name`). -/
def title : Category → String
  | lexical => "Lexical"
  | grammar => "Syntax"
  | reference => "Naming/Reference"
  | structural => "Structure"
  | property => "Property Values"
  | style => "Style"

/-- The family that a digit stands for. -/
def ofDigit? : Char → Option Category
  | '1' => some lexical
  | '2' => some grammar
  | '3' => some reference
  | '4' => some structural
  | '5' => some property
  | '6' => some style
  | _ => none

/-- The family of a written code: five bytes, the first a `P` and the second the family's digit
(`ErrorCategory::from_code`). What follows the digit is not looked at. -/
def ofText? (code : String) : Option Category :=
  match code.toList with
  | 'P' :: digit :: _ => if code.utf8ByteSize = 5 then ofDigit? digit else none
  | _ => none

end Category

/-- The family of a code. -/
def Code.category? (c : Code) : Option Category := Category.ofText? c.text

/-- The code that is written so. -/
def Code.ofText? (text : String) : Option Code := Code.all.find? (·.text = text)

/-- A code is read back from its written form. -/
theorem Code.ofText?_text (c : Code) : Code.ofText? c.text = some c := by
  cases c <;> decide

/-- Different codes are written differently. -/
theorem Code.text_injective {a b : Code} (h : a.text = b.text) : a = b := by
  have ha := Code.ofText?_text a
  rw [h, Code.ofText?_text b] at ha
  exact (Option.some.inj ha).symm

/-- Every listed code belongs to a family. -/
theorem Category.ofText?_text (c : Code) : (Category.ofText? c.text).isSome := by
  cases c <;> decide

end ProseLang
