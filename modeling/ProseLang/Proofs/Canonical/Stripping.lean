import ProseLang.Canonical.Names
import ProseLang.Canonical.Stripping
import ProseLang.Proofs.Canonical.Definitions
import ProseLang.Proofs.Validation.Validity

/-!
# Programs without comments

To leave the comments of a program out changes nothing but the program's comments: whatever is
looked for in its parts and has nothing to do with comments is found as before
(`flatMap_bodyVisits`), such as its definitions and the names that it binds, and the program is as
valid as it was (`Program.valid_withoutComments`).
-/

namespace ProseLang

/-! ## The parts of a program -/

/-- Whether what is looked for in the parts of a program has nothing to do with comments. -/
structure Visit.Overlooks {β : Type} (inside : Visit → Bool) (look : Visit → List β) : Prop where
  comment : ∀ c, look (.statement (.comment c)) = []
  statementEnd : look .statementEnd = []
  statement : ∀ s, look (.statement s.withoutComments) = look (.statement s)
  action : ∀ a, look (.action a.withoutComments) = look (.action a)
  operation : ∀ (o : Operation) body, look (.operation { o with body }) = look (.operation o)
  value : ∀ e, look (.value e.withoutComments) = look (.value e)
  insideStatement : ∀ s, inside (.statement s.withoutComments) = inside (.statement s)
  insideAction : ∀ a, inside (.action a.withoutComments) = inside (.action a)
  insideOperation : ∀ (o : Operation) body, inside (.operation { o with body })
    = inside (.operation o)

section

-- the theorems of the mutual block share the hypothesis, and some need it for the others only
set_option linter.unusedSectionVars false

variable {β : Type} {inside : Visit → Bool} {look : Visit → List β}

/-- What is found in a part is found in it and, if it is looked into, in what is within. -/
theorem flatMap_opened (v : Visit) (within : List Visit) :
    (Visit.opened inside v within).flatMap look
      = look v ++ if inside v then within.flatMap look else [] := by
  rw [Visit.opened, List.flatMap_cons]
  split <;> rfl

variable (h : Visit.Overlooks inside look)
include h

mutual

private theorem Statement.flatMap_visits :
    (s : Statement) → (s.withoutComments.visits inside).flatMap look =
    (s.visits inside).flatMap look
  | .comment _ | .importSkill _ | .agent _ | .throw _ => rfl
  | .block ⟨_, _, body, _⟩ => flatMap_bodyVisits body
  | .binding _ ⟨_, value, _⟩ => value.flatMap_visits
  | .assignment ⟨_, value, _⟩ => value.flatMap_visits
  | .action a => by
    simp only [Statement.withoutComments, Statement.visits, flatMap_opened, h.action,
      h.insideAction, a.flatMap_visits]
  | .parallel ⟨_, _, _, _, body, _⟩ => flatMap_bodyVisits body
  | .repeated ⟨_, _, body, _⟩ => flatMap_bodyVisits body
  | .forEach ⟨_, _, _, _, _, _, body, _⟩ => by
    simp only [Statement.withoutComments, Statement.visits, List.flatMap_append,
      flatMap_bodyVisits body]
  | .loop ⟨_, _, _, _, body, _⟩ => by
    simp only [Statement.withoutComments, Statement.visits, List.flatMap_append,
      flatMap_bodyVisits body]
  | .attempt ⟨body, handler, cleanup, _⟩ => by
    simp only [Statement.withoutComments, Statement.visits, List.flatMap_append,
      flatMap_bodyVisits body, flatMap_handlerVisits handler, flatMap_clauseVisits cleanup]
  | .choice ⟨_, options, _⟩ => by
    simp only [Statement.withoutComments, Statement.visits, List.flatMap_cons,
      flatMap_optionVisits options]
  | .conditional ⟨branches, otherwise, _⟩ => by
    simp only [Statement.withoutComments, Statement.visits, List.flatMap_append,
      flatMap_branchVisits branches, flatMap_clauseVisits otherwise]

/-- What is looked for in the parts of a body is found in the body without comments. -/
theorem flatMap_bodyVisits :
    (body : List Statement) →
      (bodyVisits inside (bodyWithoutComments body)).flatMap look
        = (bodyVisits inside body).flatMap look
  | [] => rfl
  | s :: body => by
    rw [bodyWithoutComments]
    split
    · next isComment =>
      cases s with
      | comment c =>
        simp [bodyVisits, flatMap_opened, Statement.visits, h.comment, h.statementEnd,
          flatMap_bodyVisits body]
      | _ => cases isComment
    · simp only [bodyVisits, List.flatMap_append, List.flatMap_cons, flatMap_opened, h.statement,
        h.insideStatement, s.flatMap_visits, flatMap_bodyVisits body]

private theorem flatMap_handlerVisits :
    (handler : Option Handler) →
      (handlerVisits inside (handlerWithoutComments handler)).flatMap look
        = (handlerVisits inside handler).flatMap look
  | none => rfl
  | some ⟨_, body, _⟩ => flatMap_bodyVisits body

private theorem flatMap_clauseVisits :
    (clause : Option Body) →
      (clauseVisits inside (clauseWithoutComments clause)).flatMap look
        = (clauseVisits inside clause).flatMap look
  | none => rfl
  | some ⟨body, _⟩ => flatMap_bodyVisits body

private theorem flatMap_optionVisits :
    (options : List ChoiceOption) →
      (optionVisits inside (optionsWithoutComments options)).flatMap look
        = (optionVisits inside options).flatMap look
  | [] => rfl
  | ⟨_, body, _⟩ :: options => by
    simp only [optionsWithoutComments, optionVisits, List.flatMap_append, List.flatMap_cons,
      flatMap_bodyVisits body, flatMap_optionVisits options]

private theorem flatMap_branchVisits :
    (branches : List Branch) →
      (branchVisits inside (branchesWithoutComments branches)).flatMap look
        = (branchVisits inside branches).flatMap look
  | [] => rfl
  | ⟨_, _, body, _⟩ :: branches => by
    simp only [branchesWithoutComments, branchVisits, List.flatMap_append, List.flatMap_cons,
      flatMap_bodyVisits body, flatMap_branchVisits branches]

private theorem Action.flatMap_visits :
    (a : Action) → (a.withoutComments.visits inside).flatMap look = (a.visits inside).flatMap look
  | .session _ => rfl
  | .pipe ⟨input, operations, _⟩ => by
    simp only [Action.withoutComments, Action.visits, List.flatMap_append, input.flatMap_visits,
      flatMap_operationVisits operations]
  | .doBlock ⟨body, _⟩ => flatMap_bodyVisits body
  | .invoke ⟨_, args, _⟩ => flatMap_valueVisits args

private theorem flatMap_operationVisits :
    (operations : List Operation) →
      (operationVisits inside (operationsWithoutComments operations)).flatMap look
        = (operationVisits inside operations).flatMap look
  | [] => rfl
  | ⟨operator, item, accumulator, body, span⟩ :: operations => by
    let o : Operation := ⟨operator, item, accumulator, body, span⟩
    simp only [operationsWithoutComments, operationVisits, List.flatMap_append, flatMap_opened,
      h.operation o (bodyWithoutComments body), h.insideOperation o (bodyWithoutComments body),
      flatMap_bodyVisits body, flatMap_operationVisits operations, o]

private theorem Expr.flatMap_visits :
    (e : Expr) → (e.withoutComments.visits inside).flatMap look = (e.visits inside).flatMap look
  | .action a => by
    simp only [Expr.withoutComments, Expr.visits, flatMap_opened, h.action, h.insideAction,
      a.flatMap_visits]
  | .array ⟨items, span⟩ => by
    have value := h.value (.array ⟨items, span⟩)
    rw [Expr.withoutComments] at value
    simp only [Expr.withoutComments, Expr.visits, List.flatMap_cons, value,
      flatMap_valueVisits items]
  | .object ⟨entries, span⟩ => by
    have value := h.value (.object ⟨entries, span⟩)
    rw [Expr.withoutComments] at value
    simp only [Expr.withoutComments, Expr.visits, List.flatMap_cons, value,
      flatMap_entryVisits entries]
  | .string _ | .number _ | .ident _ | .discretion _ => rfl

private theorem flatMap_valueVisits :
    (es : List Expr) →
      (valueVisits inside (valuesWithoutComments es)).flatMap look
        = (valueVisits inside es).flatMap look
  | [] => rfl
  | e :: es => by
    simp only [valuesWithoutComments, valueVisits, List.flatMap_append, e.flatMap_visits,
      flatMap_valueVisits es]

private theorem flatMap_entryVisits :
    (entries : List Entry) →
      (entryVisits inside (entriesWithoutComments entries)).flatMap look
        = (entryVisits inside entries).flatMap look
  | [] => rfl
  | ⟨_, some value⟩ :: entries => by
    simp only [entriesWithoutComments, entryVisits, List.flatMap_append, value.flatMap_visits,
      flatMap_entryVisits entries]
  | ⟨_, none⟩ :: entries => by
    simp only [entriesWithoutComments, entryVisits, List.flatMap_cons,
      flatMap_entryVisits entries]

end

end

/-- Comments define nothing. -/
theorem overlooks_definition :
    Visit.Overlooks Definitions.inside fun v ↦ v.definition?.toList where
  comment _ := rfl
  statementEnd := rfl
  statement s := by cases s <;> rfl
  action _ := rfl
  operation _ _ := rfl
  value _ := rfl
  insideStatement s := by cases s <;> rfl
  insideAction _ := rfl
  insideOperation _ _ := rfl

/-- Comments bind nothing. -/
theorem overlooks_boundNames : Visit.Overlooks outsideDefinitions Visit.boundNames where
  comment _ := rfl
  statementEnd := rfl
  statement s := by
    cases s with
    | attempt t =>
      rcases t with ⟨body, handler, cleanup, span⟩
      cases handler <;> rfl
    | _ => rfl
  action a := by cases a <;> rfl
  operation _ _ := rfl
  value _ := rfl
  insideStatement s := by cases s <;> rfl
  insideAction a := by cases a <;> rfl
  insideOperation _ _ := rfl

/-- A program defines the same without its comments. -/
theorem Definitions.ofProgram_withoutComments (p : Program) :
    ofProgram p.withoutComments = ofProgram p := by
  have same : bodyDefinitions p.withoutComments.statements = bodyDefinitions p.statements := by
    rw [bodyDefinitions, bodyDefinitions, definitionsAmong_eq, definitionsAmong_eq]
    exact flatMap_bodyVisits overlooks_definition p.statements
  rw [ofProgram_eq, ofProgram_eq, same]

/-- A program binds the same names without its comments. -/
theorem Program.boundNames_withoutComments (p : Program) :
    p.withoutComments.boundNames = p.boundNames :=
  congrArg (List.map Located.val) (flatMap_bodyVisits overlooks_boundNames p.statements)

/-! ## Validity -/

private theorem any_isExecutable_withoutComments (body : List Statement) :
    (bodyWithoutComments body).any Statement.isExecutable = body.any Statement.isExecutable := by
  induction body with
  | nil => rfl
  | cons s body ih =>
    rw [bodyWithoutComments]
    cases s <;> simp [Statement.isComment, Statement.withoutComments, Statement.isExecutable, ih]

private theorem Place.past_withoutComments (p : Place) (s : Statement) :
    p.past s.withoutComments = p.past s := by
  cases s <;> rfl

mutual

/-- Comments declare nothing. -/
theorem Statement.envAfter_withoutComments (isBranch : Bool) (Γ : Env) :
    (s : Statement) → s.withoutComments.envAfter isBranch Γ = s.envAfter isBranch Γ
  | .parallel ⟨_, _, _, _, body, _⟩ => bodyEnvAfter_withoutComments true Γ body
  | .comment _ | .importSkill _ | .agent _ | .block _ | .binding _ _ | .assignment _ | .repeated _
  | .forEach _ | .loop _ | .attempt _ | .throw _ | .choice _ | .conditional _ => rfl
  | .action (.session _) | .action (.pipe _) | .action (.doBlock _) | .action (.invoke _) => rfl

private theorem bodyEnvAfter_withoutComments (isBranch : Bool) (Γ : Env) :
    (body : List Statement) →
      bodyEnvAfter isBranch Γ (bodyWithoutComments body) = bodyEnvAfter isBranch Γ body
  | [] => rfl
  | s :: body => by
    rw [bodyWithoutComments]
    split
    · next isComment =>
      cases s with
      | comment c => exact bodyEnvAfter_withoutComments isBranch Γ body
      | _ => cases isComment
    · rw [bodyEnvAfter, bodyEnvAfter, s.envAfter_withoutComments isBranch Γ,
        bodyEnvAfter_withoutComments isBranch _ body]

end

private theorem length_valuesWithoutComments (es : List Expr) :
    (valuesWithoutComments es).length = es.length := by
  induction es with
  | nil => rfl
  | cons e es ih => simp [valuesWithoutComments, ih]

mutual

private theorem Statement.valid_withoutComments {k : Knowledge} {p : Place} {Γ : Env} :
    (s : Statement) → s.Valid k p Γ → s.withoutComments.Valid k p Γ
  | .comment _, h | .importSkill _, h | .agent _, h | .throw _, h => h
  | .block ⟨_, _, body, _⟩, ⟨params, valid⟩ => ⟨params, bodyValid_withoutComments body valid⟩
  | .binding _ ⟨_, value, _⟩, ⟨valid, fresh⟩ => ⟨value.valid_withoutComments valid, fresh⟩
  | .assignment ⟨_, value, _⟩, ⟨valid, assigns⟩ => ⟨value.valid_withoutComments valid, assigns⟩
  | .action (.session _), h => h
  | .action (.pipe x), ⟨valid, fresh⟩ => ⟨Action.valid_withoutComments (.pipe x) valid, fresh⟩
  | .action (.doBlock b), ⟨valid, fresh⟩ => ⟨Action.valid_withoutComments (.doBlock b) valid, fresh⟩
  | .action (.invoke i), ⟨valid, fresh⟩ => ⟨Action.valid_withoutComments (.invoke i) valid, fresh⟩
  | .parallel ⟨join, onFail, count, keys, body, span⟩, ⟨header, valid⟩ =>
    ⟨{ header with body := by rw [any_isExecutable_withoutComments]; exact header.body },
      bodyValid_withoutComments body valid⟩
  | .repeated ⟨_, _, body, _⟩, valid => bodyValid_withoutComments body valid
  | .forEach ⟨_, _, _, _, _, _, body, _⟩, ⟨collection, names, valid⟩ =>
    ⟨collection, names, bodyValid_withoutComments body valid⟩
  | .loop ⟨_, _, _, _, body, _⟩, valid => bodyValid_withoutComments body valid
  | .attempt ⟨body, handler, cleanup, _⟩, ⟨valid, handled, cleaned⟩ =>
    ⟨bodyValid_withoutComments body valid, handlerValid_withoutComments handler handled,
      clauseValid_withoutComments cleanup cleaned⟩
  | .choice ⟨_, options, _⟩, valid => optionsValid_withoutComments options valid
  | .conditional ⟨branches, otherwise, _⟩, ⟨valid, rest⟩ =>
    ⟨branchesValid_withoutComments branches valid, clauseValid_withoutComments otherwise rest⟩

/-- Statements stay valid when the comments among them and in their bodies are left out. -/
theorem bodyValid_withoutComments {k : Knowledge} {p : Place} {Γ : Env} :
    (body : List Statement) → BodyValid k p Γ body → BodyValid k p Γ (bodyWithoutComments body)
  | [], _ => trivial
  | s :: body, ⟨first, rest⟩ => by
    rw [bodyWithoutComments]
    split
    · next isComment =>
      cases s with
      | comment c => exact bodyValid_withoutComments body rest
      | _ => cases isComment
    · apply And.intro (s.valid_withoutComments first)
      rw [Place.past_withoutComments, s.envAfter_withoutComments]
      exact bodyValid_withoutComments body rest

private theorem handlerValid_withoutComments {k : Knowledge} {p : Place} {Γ : Env} :
    (h : Option Handler) → HandlerValid k p Γ h → HandlerValid k p Γ (handlerWithoutComments h)
  | none, _ => trivial
  | some ⟨_, body, _⟩, valid => bodyValid_withoutComments body valid

private theorem clauseValid_withoutComments {k : Knowledge} {p : Place} {Γ : Env} :
    (c : Option Body) → ClauseValid k p Γ c → ClauseValid k p Γ (clauseWithoutComments c)
  | none, _ => trivial
  | some ⟨body, _⟩, valid => bodyValid_withoutComments body valid

private theorem optionsValid_withoutComments {k : Knowledge} {p : Place} {Γ : Env} :
    (options : List ChoiceOption) → OptionsValid k p Γ options →
      OptionsValid k p Γ (optionsWithoutComments options)
  | [], _ => trivial
  | ⟨_, body, _⟩ :: options, ⟨label, valid, rest⟩ =>
    ⟨label, bodyValid_withoutComments body valid, optionsValid_withoutComments options rest⟩

private theorem branchesValid_withoutComments {k : Knowledge} {p : Place} {Γ : Env} :
    (branches : List Branch) → BranchesValid k p Γ branches →
      BranchesValid k p Γ (branchesWithoutComments branches)
  | [], _ => trivial
  | ⟨_, _, body, _⟩ :: branches, ⟨valid, rest⟩ =>
    ⟨bodyValid_withoutComments body valid, branchesValid_withoutComments branches rest⟩

private theorem Action.valid_withoutComments {k : Knowledge} {p : Place} {Γ : Env} :
    (a : Action) → a.Valid k p Γ → a.withoutComments.Valid k p Γ
  | .session _, h => h
  | .pipe ⟨input, operations, _⟩, ⟨valid, rest⟩ =>
    ⟨input.valid_withoutComments valid, operationsValid_withoutComments operations rest⟩
  | .doBlock ⟨body, _⟩, valid => bodyValid_withoutComments body valid
  | .invoke ⟨_, args, _⟩, ⟨valid, defined⟩ =>
    ⟨valuesValid_withoutComments args valid, by rw [length_valuesWithoutComments]; exact defined⟩

private theorem operationsValid_withoutComments {k : Knowledge} {p : Place} {Γ : Env} :
    (operations : List Operation) → OperationsValid k p Γ operations →
      OperationsValid k p Γ (operationsWithoutComments operations)
  | [], _ => trivial
  | ⟨_, _, _, body, _⟩ :: operations, ⟨names, valid, rest⟩ =>
    ⟨names, bodyValid_withoutComments body valid, operationsValid_withoutComments operations rest⟩

private theorem Expr.valid_withoutComments {k : Knowledge} {p : Place} {Γ : Env} :
    (e : Expr) → e.Valid k p Γ → e.withoutComments.Valid k p Γ
  | .action a, h => a.valid_withoutComments h
  | .array ⟨items, _⟩, h => valuesValid_withoutComments items h
  | .object ⟨entries, _⟩, h => entriesValid_withoutComments entries h
  | .string _, h | .number _, h | .ident _, h | .discretion _, h => h

private theorem valuesValid_withoutComments {k : Knowledge} {p : Place} {Γ : Env} :
    (es : List Expr) → ValuesValid k p Γ es → ValuesValid k p Γ (valuesWithoutComments es)
  | [], _ => trivial
  | e :: es, ⟨first, rest⟩ => ⟨e.valid_withoutComments first, valuesValid_withoutComments es rest⟩

private theorem entriesValid_withoutComments {k : Knowledge} {p : Place} {Γ : Env} :
    (entries : List Entry) → EntriesValid k p Γ entries →
      EntriesValid k p Γ (entriesWithoutComments entries)
  | [], _ => trivial
  | ⟨_, some value⟩ :: entries, ⟨first, rest⟩ =>
    ⟨value.valid_withoutComments first, entriesValid_withoutComments entries rest⟩
  | ⟨_, none⟩ :: entries, ⟨first, rest⟩ => ⟨first, entriesValid_withoutComments entries rest⟩

end

/-- A program stays valid when its comments are left out. -/
theorem Program.valid_withoutComments {options : ValidatorOptions} {p : Program}
    (h : p.Valid options) : p.withoutComments.Valid options where
  agents := by
    rw [Definitions.ofProgram_withoutComments]
    exact h.agents
  blocks := by
    rw [Definitions.ofProgram_withoutComments]
    exact h.blocks
  statements := by
    rw [Definitions.ofProgram_withoutComments]
    exact bodyValid_withoutComments p.statements h.statements

end ProseLang
