import ProseLang.Grammar.Parsing
import ProseLang.Proofs.Validation.Order
import ProseLang.Proofs.Validation.Tandem

/-!
# Options only leave out findings

Whatever the options, validation goes through a program in the same way. Options that know no model
and no skill and that give all advice find the most (`ValidatorOptions.strict`), and any others
leave out some of that (`validate_eq_keep`). So the more models and skills are known the fewer
errors there are, and no advice has an effect on other findings (`validate_monotone`).
-/

namespace ProseLang

namespace ValidatorOptions

/-- The options under which the most is found. -/
def strict : ValidatorOptions where
  models := []
  resolvedSkills := some []
  warnOnTodoComments := true
  warnOnUnusedBindings := true

/-- Whether an issue is noted where it arises. -/
def notes (o : ValidatorOptions) : Issue → Bool
  | .unknownModel name => !o.isKnownModel name
  | .unresolvedSkill name => !o.resolves name
  | .todoComment _ => o.warnOnTodoComments
  | .unusedBinding _ => o.warnOnUnusedBindings
  | _ => true

/-- Whether a finding is made where it arises. -/
def finds (o : ValidatorOptions) (f : Finding) : Bool := o.notes f.issue

private theorem notes_of_common (o : ValidatorOptions) {issue : Issue}
    (common : issue.isOptional = false) : o.notes issue = true := by
  cases issue <;> first | rfl | cases common

private theorem filter_onlyIf (o : ValidatorOptions) (issue : Issue) (span : Span) :
    (Finding.onlyIf true issue span).filter o.finds = Finding.onlyIf
    (o.notes issue) issue span := by
  rw [Finding.onlyIf, if_pos rfl, Finding.onlyIf, List.filter_cons, List.filter_nil]
  rfl

/-- Findings of one kind are all made or none is. -/
theorem filter_finds (o : ValidatorOptions) {fs : List Finding} {b : Bool}
    (h : ∀ f ∈ fs, o.finds f = b) : fs.filter o.finds = if b then fs else [] := by
  cases b with
  | true => exact List.filter_eq_self.2 h
  | false => exact List.filter_eq_nil_iff.2 fun f member ↦ Bool.not_eq_true _ ▸ h f member

end ValidatorOptions

private theorem Definitions.isOptional_of_mem_findings {d : Definitions} {f : Finding}
    (member : f ∈ d.findings) : f.issue.isOptional = false := by
  simp only [Definitions.findings, List.mem_append, List.mem_map] at member
  obtain (⟨_, _, rfl⟩ | ⟨_, _, rfl⟩) | ⟨_, _, rfl⟩ := member <;> rfl

private theorem exists_of_mem_commentFindings {comments : List Comment} {f : Finding}
    (member : f ∈ commentFindings comments) : ∃ marker, f.issue = .todoComment marker := by
  simp only [commentFindings, List.mem_filterMap, Option.map_eq_some_iff] at member
  obtain ⟨_, _, marker, _, rfl⟩ := member
  exact ⟨marker, rfl⟩

variable (o : ValidatorOptions) (p : Program) (e : Enumeration)

/-- Options make some of the findings of a closed scope. -/
theorem Check.unusedFindings_eq_filter (d : Definitions) (s : Scope) :
    unusedFindings ⟨o, d, e⟩ s = (unusedFindings ⟨.strict, d, e⟩ s).filter o.finds := by
  refine (o.filter_finds (b := o.warnOnUnusedBindings) fun f member ↦ ?_).symm
  obtain ⟨x, _, rfl⟩ := List.mem_map.1 member
  rfl

/-- A check under options finds some of what a check under the strict ones finds. -/
theorem Knowledge.relates_strict (d : Definitions) :
    Knowledge.Relates (fun fs gs ↦ gs = fs.filter o.finds) (fun _ ↦ True)
      ⟨.strict, d, e⟩ ⟨o, d, e⟩ where
  hasAgent _ := rfl
  hasSkill _ := rfl
  arity _ := rfl
  both := by
    rintro fs _ f common rfl
    have kept : o.finds f = true := o.notes_of_common common
    rw [List.filter_append, List.filter_cons_of_pos kept, List.filter_nil]
  model := by
    rintro fs _ name span rfl
    rw [List.filter_append]
    exact congrArg _ (o.filter_onlyIf (.unknownModel name) span).symm
  skill := by
    rintro fs _ name span rfl
    rw [List.filter_append]
    exact congrArg _ (o.filter_onlyIf (.unresolvedSkill name) span).symm
  unused := by
    rintro fs _ s _ _ rfl
    rw [List.filter_append, ← Check.unusedFindings_eq_filter]

private theorem rawFindings_eq_filter :
    rawFindings p o e = (rawFindings p .strict e).filter o.finds := by
  refine rawFindings_relates (Knowledge.relates_strict o e _) ?_ fun _ _ _ _ ↦ trivial
  have defined := o.filter_finds (b := true) fun f member ↦
    o.notes_of_common (Definitions.isOptional_of_mem_findings (d := .ofProgram p) member)
  have advice : (commentFindings p.comments).filter o.finds = _ := o.filter_finds fun f member ↦ by
    obtain ⟨marker, issue⟩ := exists_of_mem_commentFindings member
    rw [ValidatorOptions.finds, issue, ValidatorOptions.notes]
  rw [startFindings, startFindings, List.filter_append, defined]
  exact congrArg _ advice.symm

/-- Options leave out some of what is found under the strict ones. -/
theorem validate_eq_keep : validate p o e = (validate p .strict e).keep o.finds := by
  rw [validate_eq, validate_eq, rawFindings_eq_filter, ValidationResult.ofFindings_filter]

variable {p e} {o o' : ValidatorOptions}

private theorem isError_of_mem_errors {f : Finding} (member : f ∈ (validate p o e).errors) :
    f.isError = true := (List.mem_filter.1 member).2

/-- Whatever is an error under options that know more is one under those that know less. -/
theorem ValidatorOptions.finds_of_finds (models : o.models ⊆ o'.models)
    (skills : ∀ skill, o.resolves skill = true → o'.resolves skill = true) {f : Finding}
    (error : f.isError = true) (found : o'.finds f = true) : o.finds f = true := by
  obtain ⟨issue, span⟩ := f
  cases issue with
  | unknownModel name =>
    simp only [finds, notes, isKnownModel, Bool.not_eq_true', List.contains_eq_mem,
      decide_eq_false_iff_not] at found ⊢
    exact fun known ↦ found (models known)
  | unresolvedSkill name =>
    simp only [finds, notes, Bool.not_eq_true'] at found ⊢
    exact Bool.eq_false_iff.2 fun resolved ↦
      Bool.false_ne_true (found.symm.trans (skills name resolved))
  | todoComment | unusedBinding => cases error
  | _ => rfl

/-- Options that know more leave out some of the errors. -/
theorem errors_sublist (models : o.models ⊆ o'.models)
    (skills : ∀ skill, o.resolves skill = true → o'.resolves skill = true) :
    (validate p o' e).errors.Sublist (validate p o e).errors := by
  rw [validate_eq_keep o, validate_eq_keep o']
  have both : (validate p .strict e).errors.filter o'.finds
      = ((validate p .strict e).errors.filter o.finds).filter o'.finds := by
    rw [List.filter_filter]
    refine List.filter_congr fun f member ↦ (Bool.and_eq_left_iff_imp.2 ?_).symm
    exact ValidatorOptions.finds_of_finds models skills (isError_of_mem_errors member)
  change ((validate p .strict e).errors.filter o'.finds).Sublist _
  rw [both]
  exact List.filter_sublist

namespace ValidationResult

/-- Whether a result has all that another has, in the same order, but the findings of some code, and
no error is among these. -/
structure Lacks (code : Code) (r s : ValidationResult) : Prop where
  errors : r.errors = s.errors
  warnings : r.warnings = s.warnings.filter (·.issue.code ≠ code)
  findings : r.findings = s.findings.filter (·.issue.code ≠ code)

end ValidationResult

/-- Options that leave out advice of one kind only. -/
theorem validate_lacks (advice : Issue) (warning : advice.severity = .warning)
    (without : ∀ f, o.finds f = (decide (f.issue.code ≠ advice.code) && o'.finds f)) :
    (validate p o e).Lacks advice.code (validate p o' e) := by
  have left : validate p o e = (validate p o' e).keep (·.issue.code ≠ advice.code) := by
    rw [validate_eq_keep o, validate_eq_keep o', ValidationResult.keep_keep]
    exact congrArg _ (funext without)
  rw [left]
  refine ⟨List.filter_eq_self.2 fun f member ↦ decide_eq_true fun same ↦ ?_, rfl,
    ValidationResult.findings_keep _ _⟩
  have error := isError_of_mem_errors member
  rw [Finding.isError, Finding.severity, Issue.severity_eq_of_code_eq same, warning] at error
  exact Bool.false_ne_true error

/-- Options are monotone and do not interfere. If options know at least the models and the skills
that others know, they leave some of the errors, and what is valid stays valid. Advice about
comments and about unused bindings has an effect on the warnings under its own code only. -/
theorem validate_monotone (p : Program) (e : Enumeration) {o o' : ValidatorOptions}
    (models : o.models ⊆ o'.models)
    (skills : ∀ skill, o.resolves skill = true → o'.resolves skill = true) :
    (validate p o' e).errors.Sublist (validate p o e).errors
      ∧ ((validate p o e).isValid = true → (validate p o' e).isValid = true)
      ∧ (validate p { o with warnOnTodoComments := false } e).Lacks .todoComment
          (validate p { o with warnOnTodoComments := true } e)
      ∧ (validate p { o with warnOnUnusedBindings := false } e).Lacks .unusedBinding
          (validate p { o with warnOnUnusedBindings := true } e) := by
  have fewer := errors_sublist (p := p) (e := e) models skills
  refine ⟨fewer, fun valid ↦ ?_, validate_lacks (.todoComment "") rfl fun ⟨issue, _⟩ ↦ ?_,
    validate_lacks (.unusedBinding "") rfl fun ⟨issue, _⟩ ↦ ?_⟩
  · have none : (validate p o e).errors = [] := List.isEmpty_iff.1 valid
    exact List.isEmpty_iff.2 (List.sublist_nil.1 (none ▸ fewer))
  · cases issue <;> rfl
  · cases issue <;> rfl

/-- A model and a skill that only some options know. -/
theorem validate_monotone_model :
    let p := (parse ("import \"a\" from \"b\"\n# TODO\nlet x = session \"c\":\n"
      ++ "  model: gpt\n")).program
    let o : ValidatorOptions := { resolvedSkills := some [] }
    let o' : ValidatorOptions := { models := "gpt" :: o.models }
    o.models ⊆ o'.models ∧ (∀ skill, o.resolves skill = true → o'.resolves skill = true)
      ∧ (rawFindings p o).map (·.issue)
        = [.todoComment "TODO", .unresolvedSkill "a", .unknownModel "gpt", .unusedBinding "x"]
      ∧ (validate p o').errors.Sublist (validate p o).errors
      ∧ ((validate p o).isValid = true → (validate p o').isValid = true)
      ∧ (validate p { o with warnOnTodoComments := false }).Lacks .todoComment (validate p o)
      ∧ (validate p { o with warnOnUnusedBindings := false }).Lacks .unusedBinding
        (validate p o) := by
  intro p o o'
  have models : o.models ⊆ o'.models := List.subset_cons_self _ _
  have skills (skill : String) (_ : o.resolves skill = true) : o'.resolves skill = true := rfl
  refine ⟨models, skills, by decide +kernel, ?_⟩
  exact validate_monotone p .declared models skills

end ProseLang
