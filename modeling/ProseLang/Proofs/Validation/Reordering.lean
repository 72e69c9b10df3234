import ProseLang.Grammar.Parsing
import ProseLang.Proofs.Canonical.Definitions
import ProseLang.Proofs.Program.Visits
import ProseLang.Proofs.Sorting
import ProseLang.Proofs.Validation.Independence

/-!
# The order of branches

`Program.Reorders` says that a program becomes another one by branches of its parallel blocks
trading places, at any depth. Whether the program is valid does not depend on that
(`validate_reorders`). It does depend on the order of branches one of which mentions what the other
one declares (`swapped_branches_invalid`).
-/

namespace ProseLang

mutual

/-- Whether a statement becomes another one by independent branches of the parallel blocks in it
trading places. -/
def Statement.Reorders : Statement → Statement → Prop
  | .block ⟨name, params, body, span⟩, t =>
    ∃ body', BodyReorders body body' ∧ t = .block ⟨name, params, body', span⟩
  | .agent ⟨name, model, prompt, skills, permissions, properties, keys, span⟩, t =>
    ∃ permissions' properties', PermissionsReorder permissions permissions'
      ∧ PropertiesReorder properties properties'
      ∧ t = .agent ⟨name, model, prompt, skills, permissions', properties', keys, span⟩
  | .binding kind ⟨name, value, span⟩, t =>
    ∃ value', value.Reorders value' ∧ t = .binding kind ⟨name, value', span⟩
  | .assignment ⟨name, value, span⟩, t =>
    ∃ value', value.Reorders value' ∧ t = .assignment ⟨name, value', span⟩
  | .action a, t => ∃ b, a.Reorders b ∧ t = .action b
  | .parallel ⟨join, onFail, count, keys, body, span⟩, t =>
    ∃ body' traded, BodyReorders body body' ∧ Trades body' traded
      ∧ t = .parallel ⟨join, onFail, count, keys, traded, span⟩
  | .repeated ⟨count, index, body, span⟩, t =>
    ∃ body', BodyReorders body body' ∧ t = .repeated ⟨count, index, body', span⟩
  | .forEach ⟨item, index, collection, isParallel, forKeyword, inKeyword, body, span⟩, t =>
    ∃ collection' body', collection.Reorders collection' ∧ BodyReorders body body'
      ∧ t = .forEach ⟨item, index, collection', isParallel, forKeyword, inKeyword, body', span⟩
  | .loop ⟨condition, maxIterations, index, keys, body, span⟩, t =>
    ∃ body', BodyReorders body body' ∧ t = .loop
      ⟨condition, maxIterations, index, keys, body', span⟩
  | .attempt ⟨body, handler, cleanup, span⟩, t =>
    ∃ body' handler' cleanup', BodyReorders body body' ∧ HandlerReorders handler handler'
      ∧ ClauseReorders cleanup cleanup' ∧ t = .attempt ⟨body', handler', cleanup', span⟩
  | .choice ⟨criteria, options, span⟩, t =>
    ∃ options', OptionsReorder options options' ∧ t = .choice ⟨criteria, options', span⟩
  | .conditional ⟨branches, otherwise, span⟩, t =>
    ∃ branches' otherwise', BranchesReorder branches branches' ∧ ClauseReorders otherwise otherwise'
      ∧ t = .conditional ⟨branches', otherwise', span⟩
  | .comment c, t => t = .comment c
  | .importSkill i, t => t = .importSkill i
  | .throw x, t => t = .throw x
termination_by structural s => s

/-- Whether statements become others, one by one. -/
def BodyReorders : List Statement → List Statement → Prop
  | [], body' => body' = []
  | s :: body, body' => ∃ t rest, s.Reorders t ∧ BodyReorders body rest ∧ body' = t :: rest
termination_by structural xs => xs

/-- Whether a handler becomes another one. -/
def HandlerReorders : Option Handler → Option Handler → Prop
  | none, handler' => handler' = none
  | some ⟨error, body, span⟩, handler' =>
    ∃ body', BodyReorders body body' ∧ handler' = some ⟨error, body', span⟩
termination_by structural x => x

/-- Whether a clause that has a body only becomes another one. -/
def ClauseReorders : Option Body → Option Body → Prop
  | none, clause' => clause' = none
  | some ⟨body, span⟩, clause' => ∃ body', BodyReorders body body' ∧ clause' = some ⟨body', span⟩
termination_by structural x => x

/-- Whether the options of a choice become others. -/
def OptionsReorder : List ChoiceOption → List ChoiceOption → Prop
  | [], options' => options' = []
  | ⟨label, body, span⟩ :: options, options' =>
    ∃ body' rest, BodyReorders body body' ∧ OptionsReorder options rest
      ∧ options' = ⟨label, body', span⟩ :: rest
termination_by structural xs => xs

/-- Whether conditional branches become others. -/
def BranchesReorder : List Branch → List Branch → Prop
  | [], branches' => branches' = []
  | ⟨keyword, condition, body, span⟩ :: branches, branches' =>
    ∃ body' rest, BodyReorders body body' ∧ BranchesReorder branches rest
      ∧ branches' = ⟨keyword, condition, body', span⟩ :: rest
termination_by structural xs => xs

/-- Whether an action becomes another one. -/
def Action.Reorders : Action → Action → Prop
  | .session ⟨name, prompt, agent, model, skills, context, retry, backoff, properties, keys, arrow,
      span⟩, b =>
    ∃ properties', PropertiesReorder properties properties'
      ∧ b = .session ⟨name, prompt, agent, model, skills, context, retry, backoff,
        properties', keys, arrow, span⟩
  | .pipe ⟨input, operations, span⟩, b =>
    ∃ input' operations', input.Reorders input' ∧ OperationsReorder operations operations'
      ∧ b = .pipe ⟨input', operations', span⟩
  | .doBlock ⟨body, span⟩, b => ∃ body', BodyReorders body body' ∧ b = .doBlock ⟨body', span⟩
  | .invoke ⟨name, args, span⟩, b =>
    ∃ args', ValuesReorder args args' ∧ b = .invoke ⟨name, args', span⟩
termination_by structural a => a

/-- Whether pipe operations become others. -/
def OperationsReorder : List Operation → List Operation → Prop
  | [], operations' => operations' = []
  | ⟨operator, item, accumulator, body, span⟩ :: operations, operations' =>
    ∃ body' rest, BodyReorders body body' ∧ OperationsReorder operations rest
      ∧ operations' = ⟨operator, item, accumulator, body', span⟩ :: rest
termination_by structural xs => xs

/-- Whether a value becomes another one. -/
def Expr.Reorders : Expr → Expr → Prop
  | .action a, f => ∃ b, a.Reorders b ∧ f = .action b
  | .array ⟨items, span⟩, f => ∃ items', ValuesReorder items items' ∧ f = .array ⟨items', span⟩
  | .object ⟨entries, span⟩, f =>
    ∃ entries', EntriesReorder entries entries' ∧ f = .object ⟨entries', span⟩
  | .string s, f => f = .string s
  | .number n, f => f = .number n
  | .ident name, f => f = .ident name
  | .discretion d, f => f = .discretion d
termination_by structural e => e

/-- Whether values become others, one by one. -/
def ValuesReorder : List Expr → List Expr → Prop
  | [], es' => es' = []
  | e :: es, es' => ∃ f rest, e.Reorders f ∧ ValuesReorder es rest ∧ es' = f :: rest
termination_by structural xs => xs

/-- Whether the entries of an object become others. -/
def EntriesReorder : List Entry → List Entry → Prop
  | [], entries' => entries' = []
  | ⟨key, some value⟩ :: entries, entries' =>
    ∃ value' rest, value.Reorders value' ∧ EntriesReorder entries rest
      ∧ entries' = ⟨key, some value'⟩ :: rest
  | ⟨key, none⟩ :: entries, entries' =>
    ∃ rest, EntriesReorder entries rest ∧ entries' = ⟨key, none⟩ :: rest
termination_by structural xs => xs

/-- Whether the permissions of an agent become others. -/
def PermissionsReorder : Option (List Property) → Option (List Property) → Prop
  | none, permissions' => permissions' = none
  | some properties, permissions' =>
    ∃ properties', PropertiesReorder properties properties' ∧ permissions' = some properties'
termination_by structural x => x

/-- Whether properties become others. -/
def PropertiesReorder : List Property → List Property → Prop
  | [], properties' => properties' = []
  | ⟨key, value, span⟩ :: properties, properties' =>
    ∃ value' rest, value.Reorders value' ∧ PropertiesReorder properties rest
      ∧ properties' = ⟨key, value', span⟩ :: rest
termination_by structural xs => xs

/-- Whether the value of a property becomes another one. -/
def PropertyValue.Reorders : PropertyValue → PropertyValue → Prop
  | .expr e, v => ∃ f, e.Reorders f ∧ v = .expr f
  | .nested properties, v =>
    ∃ properties', PropertiesReorder properties properties' ∧ v = .nested properties'
  | .context c, v => v = .context c
termination_by structural v => v

end

/-- Whether a program becomes another one by independent branches of its parallel blocks trading
places. -/
def Program.Reorders (p q : Program) : Prop := BodyReorders p.statements q.statements

/-! ## Keeping the order -/

mutual

/-- Branches need not trade places. -/
theorem Statement.Reorders.refl : (s : Statement) → s.Reorders s
  | .comment _ | .importSkill _ | .throw _ => rfl
  | .agent ⟨_, _, _, _, permissions, properties, _, _⟩ =>
    ⟨_, _, PermissionsReorder.refl permissions, PropertiesReorder.refl properties, rfl⟩
  | .block ⟨_, _, body, _⟩ => ⟨_, BodyReorders.refl body, rfl⟩
  | .binding _ ⟨_, value, _⟩ => ⟨_, Expr.Reorders.refl value, rfl⟩
  | .assignment ⟨_, value, _⟩ => ⟨_, Expr.Reorders.refl value, rfl⟩
  | .action a => ⟨_, Action.Reorders.refl a, rfl⟩
  | .parallel ⟨_, _, _, _, body, _⟩ => ⟨_, _, BodyReorders.refl body, Trades.refl body, rfl⟩
  | .repeated ⟨_, _, body, _⟩ => ⟨_, BodyReorders.refl body, rfl⟩
  | .forEach ⟨_, _, collection, _, _, _, body, _⟩ =>
    ⟨_, _, Expr.Reorders.refl collection, BodyReorders.refl body, rfl⟩
  | .loop ⟨_, _, _, _, body, _⟩ => ⟨_, BodyReorders.refl body, rfl⟩
  | .attempt ⟨body, handler, cleanup, _⟩ =>
    ⟨_, _, _, BodyReorders.refl body, HandlerReorders.refl handler,
      ClauseReorders.refl cleanup, rfl⟩
  | .choice ⟨_, options, _⟩ => ⟨_, OptionsReorder.refl options, rfl⟩
  | .conditional ⟨branches, otherwise, _⟩ =>
    ⟨_, _, BranchesReorder.refl branches, ClauseReorders.refl otherwise, rfl⟩

private theorem BodyReorders.refl : (body : List Statement) → BodyReorders body body
  | [] => rfl
  | s :: body => ⟨_, _, Statement.Reorders.refl s, BodyReorders.refl body, rfl⟩

private theorem HandlerReorders.refl : (handler : Option Handler) → HandlerReorders handler handler
  | none => rfl
  | some ⟨_, body, _⟩ => ⟨_, BodyReorders.refl body, rfl⟩

private theorem ClauseReorders.refl : (clause : Option Body) → ClauseReorders clause clause
  | none => rfl
  | some ⟨body, _⟩ => ⟨_, BodyReorders.refl body, rfl⟩

private theorem OptionsReorder.refl : (options : List ChoiceOption) → OptionsReorder options options
  | [] => rfl
  | ⟨_, body, _⟩ :: options => ⟨_, _, BodyReorders.refl body, OptionsReorder.refl options, rfl⟩

private theorem BranchesReorder.refl : (branches : List Branch) → BranchesReorder branches branches
  | [] => rfl
  | ⟨_, _, body, _⟩ :: branches =>
    ⟨_, _, BodyReorders.refl body, BranchesReorder.refl branches, rfl⟩

private theorem Action.Reorders.refl : (a : Action) → a.Reorders a
  | .session ⟨_, _, _, _, _, _, _, _, properties, _, _, _⟩ =>
    ⟨_, PropertiesReorder.refl properties, rfl⟩
  | .pipe ⟨input, operations, _⟩ =>
    ⟨_, _, Expr.Reorders.refl input, OperationsReorder.refl operations, rfl⟩
  | .doBlock ⟨body, _⟩ => ⟨_, BodyReorders.refl body, rfl⟩
  | .invoke ⟨_, args, _⟩ => ⟨_, ValuesReorder.refl args, rfl⟩

private theorem OperationsReorder.refl : (operations : List Operation) →
    OperationsReorder operations operations
  | [] => rfl
  | ⟨_, _, _, body, _⟩ :: operations =>
    ⟨_, _, BodyReorders.refl body, OperationsReorder.refl operations, rfl⟩

private theorem Expr.Reorders.refl : (e : Expr) → e.Reorders e
  | .action a => ⟨_, Action.Reorders.refl a, rfl⟩
  | .array ⟨items, _⟩ => ⟨_, ValuesReorder.refl items, rfl⟩
  | .object ⟨entries, _⟩ => ⟨_, EntriesReorder.refl entries, rfl⟩
  | .string _ | .number _ | .ident _ | .discretion _ => rfl

private theorem ValuesReorder.refl : (es : List Expr) → ValuesReorder es es
  | [] => rfl
  | e :: es => ⟨_, _, Expr.Reorders.refl e, ValuesReorder.refl es, rfl⟩

private theorem EntriesReorder.refl : (entries : List Entry) → EntriesReorder entries entries
  | [] => rfl
  | ⟨_, some value⟩ :: entries => ⟨_, _, Expr.Reorders.refl value, EntriesReorder.refl entries, rfl⟩
  | ⟨_, none⟩ :: entries => ⟨_, EntriesReorder.refl entries, rfl⟩

private theorem PermissionsReorder.refl : (ps : Option (List Property)) → PermissionsReorder ps ps
  | none => rfl
  | some ps => ⟨_, PropertiesReorder.refl ps, rfl⟩

private theorem PropertiesReorder.refl : (ps : List Property) → PropertiesReorder ps ps
  | [] => rfl
  | ⟨_, value, _⟩ :: ps => ⟨_, _, PropertyValue.Reorders.refl value, PropertiesReorder.refl ps, rfl⟩

private theorem PropertyValue.Reorders.refl : (v : PropertyValue) → v.Reorders v
  | .expr e => ⟨_, Expr.Reorders.refl e, rfl⟩
  | .nested ps => ⟨_, PropertiesReorder.refl ps, rfl⟩
  | .context _ => rfl

end

/-! ## What stays the same -/

private theorem Trades.bodyDefinitions {body body' : List Statement} (h : Trades body body') :
    (bodyDefinitions body').Perm (bodyDefinitions body) := by
  have each (body : List Statement) :
      ProseLang.bodyDefinitions body = body.flatMap Statement.definitions := by
    induction body with
    | nil => rfl
    | cons s body ih => rw [bodyDefinitions_cons, ih, List.flatMap_cons]
  rw [each, each]
  exact (h.perm.flatMap_right _).symm

private theorem Statement.Reorders.isExecutable {s t : Statement} (h : s.Reorders t) :
    t.isExecutable = s.isExecutable := by
  cases s with
  | comment | importSkill | throw => exact congrArg Statement.isExecutable h
  | agent | parallel | forEach | conditional =>
    obtain ⟨_, _, _, _, rfl⟩ := h
    rfl
  | attempt =>
    obtain ⟨_, _, _, _, _, _, rfl⟩ := h
    rfl
  | _ =>
    obtain ⟨_, _, rfl⟩ := h
    rfl

private theorem Statement.Reorders.past {s t : Statement} (h : s.Reorders t) (p : Place) :
    p.past t = p.past s := by
  cases s with
  | comment | importSkill | throw => exact congrArg p.past h
  | agent | parallel | forEach | conditional =>
    obtain ⟨_, _, _, _, rfl⟩ := h
    rfl
  | attempt =>
    obtain ⟨_, _, _, _, _, _, rfl⟩ := h
    rfl
  | _ =>
    obtain ⟨_, _, rfl⟩ := h
    rfl

private theorem any_isExecutable_of_reorders {body body' : List Statement}
    (h : BodyReorders body body') :
    body'.any Statement.isExecutable = body.any Statement.isExecutable := by
  induction body generalizing body' with
  | nil => rw [show body' = [] from h]
  | cons s body ih =>
    obtain ⟨t, rest, first, later, rfl⟩ := h
    rw [List.any_cons, List.any_cons, first.isExecutable, ih later]

private theorem length_of_valuesReorder {es es' : List Expr} (h : ValuesReorder es es') :
    es'.length = es.length := by
  induction es generalizing es' with
  | nil => rw [show es' = [] from h]
  | cons e es ih =>
    obtain ⟨f, rest, -, later, rfl⟩ := h
    rw [List.length_cons, List.length_cons, ih later]

private theorem properties_eq_nil_of_reorder {ps ps' : List Property}
    (h : PropertiesReorder ps ps') : ps' = [] ↔ ps = [] := by
  cases ps with
  | nil => rw [show ps' = [] from h]
  | cons p ps =>
    obtain ⟨_, _, -, -, rfl⟩ := h
    simp

private theorem isString_of_reorders {e f : Expr} (h : e.Reorders f) :
    Check.isString f = Check.isString e := by
  cases e with
  | action | array | object =>
    obtain ⟨_, -, rfl⟩ := h
    rfl
  | _ => exact congrArg Check.isString h

private theorem isPermission_of_reorders {v w : PropertyValue} (h : v.Reorders w) :
    Check.isPermission w = Check.isPermission v := by
  cases v with
  | expr e =>
    obtain ⟨f, h, rfl⟩ := h
    cases e with
    | array a =>
      obtain ⟨items, h, rfl⟩ := h
      obtain ⟨own, span⟩ := a
      change items.all Check.isString = own.all Check.isString
      induction own generalizing items with
      | nil => rw [show items = [] from h]
      | cons e own ih =>
        obtain ⟨f, rest, first, later, rfl⟩ := h
        rw [List.all_cons, List.all_cons, isString_of_reorders first, ih rest later]
    | action | object =>
      obtain ⟨_, -, rfl⟩ := h
      rfl
    | _ =>
      rw [show f = _ from h]
  | nested =>
    obtain ⟨_, -, rfl⟩ := h
    rfl
  | context => rw [show w = _ from h]

mutual

private theorem Statement.Reorders.envAfter {isBranch : Bool} {Γ : Env} :
    {s t : Statement} → s.Reorders t → t.envAfter isBranch Γ = s.envAfter isBranch Γ
  | .parallel ⟨_, _, _, _, body, _⟩, _, ⟨_, _, h, trades, rfl⟩ =>
    (trades.bodyEnvAfter true Γ).trans (bodyEnvAfter_of_reorders body h)
  | .binding _ _, _, ⟨_, _, rfl⟩ | .assignment _, _, ⟨_, _, rfl⟩ => rfl
  | .action (.session _), _, ⟨_, ⟨_, _, rfl⟩, rfl⟩ => rfl
  | .action (.pipe _), _, ⟨_, ⟨_, _, _, _, rfl⟩, rfl⟩ => rfl
  | .action (.doBlock _), _, ⟨_, ⟨_, _, rfl⟩, rfl⟩ => rfl
  | .action (.invoke _), _, ⟨_, ⟨_, _, rfl⟩, rfl⟩ => rfl
  | .comment _, _, rfl | .importSkill _, _, rfl | .throw _, _, rfl => rfl
  | .agent _, _, ⟨_, _, _, _, rfl⟩ | .forEach _, _, ⟨_, _, _, _, rfl⟩
  | .conditional _, _, ⟨_, _, _, _, rfl⟩ => rfl
  | .attempt _, _, ⟨_, _, _, _, _, _, rfl⟩ => rfl
  | .block _, _, ⟨_, _, rfl⟩ | .repeated _, _, ⟨_, _, rfl⟩ | .loop _, _, ⟨_, _, rfl⟩
  | .choice _, _, ⟨_, _, rfl⟩ => rfl

private theorem bodyEnvAfter_of_reorders {isBranch : Bool} {Γ : Env} {body' : List Statement} :
    (body : List Statement) → BodyReorders body body' →
      bodyEnvAfter isBranch Γ body' = bodyEnvAfter isBranch Γ body
  | [], h => by rw [show body' = [] from h]
  | s :: body, h => by
    obtain ⟨t, rest, first, later, rfl⟩ := h
    rw [bodyEnvAfter, bodyEnvAfter, first.envAfter, bodyEnvAfter_of_reorders body later]

end

/-! ## Definitions -/

/-- What properties define. -/
def propertyDefinitions (ps : List Property) : List Definition :=
  definitionsAmong (propertyVisits Definitions.inside ps)

/-- What the value of a property defines. -/
def PropertyValue.definitions (v : PropertyValue) : List Definition :=
  definitionsAmong (v.visits Definitions.inside)

private theorem propertyDefinitions_cons (key : Ident) (value : PropertyValue) (span : Span)
    (ps : List Property) :
    propertyDefinitions (⟨key, value, span⟩ :: ps)
      = value.definitions ++ propertyDefinitions ps := List.filterMap_append

mutual

private theorem Statement.Reorders.definitions :
    {s t : Statement} → s.Reorders t → t.definitions.Perm s.definitions
  | .block ⟨_, _, body, _⟩, _, ⟨_, h, rfl⟩ => (bodyDefinitions_perm body h).cons _
  | .binding _ ⟨_, _, _⟩, _, ⟨_, h, rfl⟩ => h.definitions
  | .assignment ⟨_, _, _⟩, _, ⟨_, h, rfl⟩ => h.definitions
  | .action _, _, ⟨_, h, rfl⟩ => h.definitions
  | .parallel ⟨_, _, _, _, body, _⟩, _, ⟨_, _, h, trades, rfl⟩ =>
    trades.bodyDefinitions.trans (bodyDefinitions_perm body h)
  | .repeated ⟨_, _, body, _⟩, _, ⟨_, h, rfl⟩ => bodyDefinitions_perm body h
  | .forEach ⟨_, _, _, _, _, _, body, _⟩, _, ⟨_, _, collection, h, rfl⟩ => by
    simpa using collection.definitions.append (bodyDefinitions_perm body h)
  | .loop ⟨_, _, _, _, body, _⟩, _, ⟨_, h, rfl⟩ => by simpa using bodyDefinitions_perm body h
  | .attempt ⟨body, handler, cleanup, _⟩, _, ⟨_, _, _, h, handled, cleaned, rfl⟩ => by
    have first := bodyDefinitions_perm body h
    have second := handlerDefinitions_perm handler handled
    simpa using (first.append second).append (clauseDefinitions_perm cleanup cleaned)
  | .choice ⟨_, options, _⟩, _, ⟨_, h, rfl⟩ => optionDefinitions_perm options h
  | .conditional ⟨branches, otherwise, _⟩, _, ⟨_, _, h, rest, rfl⟩ => by
    simpa using (branchDefinitions_perm branches h).append (clauseDefinitions_perm otherwise rest)
  | .comment _, _, rfl | .importSkill _, _, rfl | .throw _, _, rfl
  | .agent ⟨_, _, _, _, _, _, _, _⟩, _, ⟨_, _, _, _, rfl⟩ => .refl _
termination_by structural s => s

/-- The definitions in statements are the same, though maybe in another order. -/
theorem bodyDefinitions_perm {body' : List Statement} :
    (body : List Statement) → BodyReorders body body' →
      (bodyDefinitions body').Perm (bodyDefinitions body)
  | [], h => by rw [show body' = [] from h]
  | s :: body, h => by
    obtain ⟨t, rest, first, later, rfl⟩ := h
    rw [bodyDefinitions_cons, bodyDefinitions_cons]
    exact first.definitions.append (bodyDefinitions_perm body later)
termination_by structural xs => xs

private theorem handlerDefinitions_perm {handler' : Option Handler} :
    (handler : Option Handler) → HandlerReorders handler handler' →
      (handlerDefinitions handler').Perm (handlerDefinitions handler)
  | none, h => by rw [show handler' = none from h]
  | some ⟨_, body, _⟩, h => by
    obtain ⟨_, h, rfl⟩ := h
    exact bodyDefinitions_perm body h
termination_by structural xs => xs

private theorem clauseDefinitions_perm {clause' : Option Body} :
    (clause : Option Body) → ClauseReorders clause clause' →
      (clauseDefinitions clause').Perm (clauseDefinitions clause)
  | none, h => by rw [show clause' = none from h]
  | some ⟨body, _⟩, h => by
    obtain ⟨_, h, rfl⟩ := h
    exact bodyDefinitions_perm body h
termination_by structural xs => xs

private theorem optionDefinitions_perm {options' : List ChoiceOption} :
    (options : List ChoiceOption) → OptionsReorder options options' →
      (optionDefinitions options').Perm (optionDefinitions options)
  | [], h => by rw [show options' = [] from h]
  | ⟨_, body, _⟩ :: options, h => by
    obtain ⟨_, _, first, later, rfl⟩ := h
    rw [optionDefinitions_cons, optionDefinitions_cons]
    exact (bodyDefinitions_perm body first).append (optionDefinitions_perm options later)
termination_by structural xs => xs

private theorem branchDefinitions_perm {branches' : List Branch} :
    (branches : List Branch) → BranchesReorder branches branches' →
      (branchDefinitions branches').Perm (branchDefinitions branches)
  | [], h => by rw [show branches' = [] from h]
  | ⟨_, _, body, _⟩ :: branches, h => by
    obtain ⟨_, _, first, later, rfl⟩ := h
    rw [branchDefinitions_cons, branchDefinitions_cons]
    exact (bodyDefinitions_perm body first).append (branchDefinitions_perm branches later)
termination_by structural xs => xs

private theorem Action.Reorders.definitions :
    {a b : Action} → a.Reorders b → b.definitions.Perm a.definitions
  | .session ⟨_, _, _, _, _, _, _, _, properties, _, _, _⟩, _, ⟨_, h, rfl⟩ => by
    rw [Action.definitions_session, Action.definitions_session]
    exact propertyDefinitions_perm properties h
  | .pipe ⟨_, operations, _⟩, _, ⟨_, _, input, h, rfl⟩ => by
    rw [Action.definitions_pipe, Action.definitions_pipe]
    exact input.definitions.append (operationDefinitions_perm operations h)
  | .doBlock ⟨body, _⟩, _, ⟨_, h, rfl⟩ => bodyDefinitions_perm body h
  | .invoke ⟨_, args, _⟩, _, ⟨_, h, rfl⟩ => valueDefinitions_perm args h
termination_by structural a => a

private theorem operationDefinitions_perm {operations' : List Operation} :
    (operations : List Operation) → OperationsReorder operations operations' →
      (operationDefinitions operations').Perm (operationDefinitions operations)
  | [], h => by rw [show operations' = [] from h]
  | ⟨_, _, _, body, _⟩ :: operations, h => by
    obtain ⟨_, _, first, later, rfl⟩ := h
    rw [operationDefinitions_cons, operationDefinitions_cons]
    exact (bodyDefinitions_perm body first).append (operationDefinitions_perm operations later)
termination_by structural xs => xs

private theorem Expr.Reorders.definitions :
    {e f : Expr} → e.Reorders f → f.definitions.Perm e.definitions
  | .action _, _, ⟨_, h, rfl⟩ => h.definitions
  | .array ⟨items, _⟩, _, ⟨_, h, rfl⟩ => valueDefinitions_perm items h
  | .object ⟨entries, _⟩, _, ⟨_, h, rfl⟩ => entryDefinitions_perm entries h
  | .string _, _, rfl | .number _, _, rfl | .ident _, _, rfl | .discretion _, _, rfl => .refl _
termination_by structural e => e

private theorem valueDefinitions_perm {es' : List Expr} :
    (es : List Expr) → ValuesReorder es es' → (valueDefinitions es').Perm (valueDefinitions es)
  | [], h => by rw [show es' = [] from h]
  | e :: es, h => by
    obtain ⟨f, rest, first, later, rfl⟩ := h
    rw [valueDefinitions_cons, valueDefinitions_cons]
    exact first.definitions.append (valueDefinitions_perm es later)
termination_by structural xs => xs

private theorem entryDefinitions_perm {entries' : List Entry} :
    (entries : List Entry) → EntriesReorder entries entries' →
      (entryDefinitions entries').Perm (entryDefinitions entries)
  | [], h => by rw [show entries' = [] from h]
  | ⟨_, some value⟩ :: entries, h => by
    obtain ⟨_, _, first, later, rfl⟩ := h
    rw [entryDefinitions_some, entryDefinitions_some]
    exact first.definitions.append (entryDefinitions_perm entries later)
  | ⟨_, none⟩ :: entries, h => by
    obtain ⟨_, later, rfl⟩ := h
    rw [entryDefinitions_none, entryDefinitions_none]
    exact entryDefinitions_perm entries later
termination_by structural xs => xs

private theorem propertyDefinitions_perm {ps' : List Property} :
    (ps : List Property) → PropertiesReorder ps ps' →
      (propertyDefinitions ps').Perm (propertyDefinitions ps)
  | [], h => by rw [show ps' = [] from h]
  | ⟨_, value, _⟩ :: ps, h => by
    obtain ⟨_, _, first, later, rfl⟩ := h
    rw [propertyDefinitions_cons, propertyDefinitions_cons]
    exact first.definitions.append (propertyDefinitions_perm ps later)
termination_by structural xs => xs

private theorem PropertyValue.Reorders.definitions :
    {v w : PropertyValue} → v.Reorders w → w.definitions.Perm v.definitions
  | .expr _, _, ⟨_, h, rfl⟩ => h.definitions
  | .nested ps, _, ⟨_, h, rfl⟩ => propertyDefinitions_perm ps h
  | .context _, _, rfl => .refl _
termination_by structural v => v

end

/-! ## Validity -/

/-- Whether what is known about two programs says the same of every name. -/
structure Knowledge.Agrees (k k' : Knowledge) : Prop where
  options : k'.options = k.options
  hasAgent : ∀ name, k'.definitions.hasAgent name = k.definitions.hasAgent name
  hasSkill : ∀ name, k'.definitions.hasSkill name = k.definitions.hasSkill name
  arity : ∀ name, k'.definitions.arity? name = k.definitions.arity? name

private theorem Knowledge.Agrees.symm {k k' : Knowledge} (h : k.Agrees k') : k'.Agrees k where
  options := h.options.symm
  hasAgent name := (h.hasAgent name).symm
  hasSkill name := (h.hasSkill name).symm
  arity name := (h.arity name).symm

private theorem SessionOf.Valid.of_agrees {k k' : Knowledge} {Γ : Env} (agrees : k.Agrees k')
    {s : Session} {properties : List Property} (none : properties = [] ↔ s.properties = [])
    (valid : SessionOf.Valid k Γ s) : SessionOf.Valid k' Γ { s with properties } where
  task := valid.task
  agent a chosen := by
    rw [agrees.hasAgent]
    exact valid.agent a chosen
  model m chosen := by
    rw [agrees.options]
    exact valid.model m chosen
  skills x hx := by
    rw [agrees.hasSkill]
    exact valid.skills x hx
  retry := valid.retry
  backoff := valid.backoff
  properties := none.2 valid.properties
  prompt := valid.prompt
  context := valid.context

private theorem AgentOf.Valid.of_agrees {k k' : Knowledge} (agrees : k.Agrees k') {a : Agent}
    {permissions : Option (List Property)} {properties : List Property}
    (allowed : (∀ p ∈ a.permissions.getD [], p.IsPermission) →
      ∀ p ∈ permissions.getD [], p.IsPermission)
    (none : properties = [] ↔ a.properties = []) (valid : a.Valid k) :
    AgentOf.Valid k' { a with permissions, properties } where
  model m chosen := by
    rw [agrees.options]
    exact valid.model m chosen
  skills x hx := by
    rw [agrees.hasSkill]
    exact valid.skills x hx
  permissions := allowed valid.permissions
  properties := none.2 valid.properties

private theorem permissions_of_reorder {permissions permissions' : Option (List Property)}
    (h : PermissionsReorder permissions permissions') :
    (∀ p ∈ permissions'.getD [], p.IsPermission) ↔ ∀ p ∈ permissions.getD [], p.IsPermission := by
  cases permissions with
  | none => rw [show permissions' = none from h]
  | some ps =>
    obtain ⟨ps', h, rfl⟩ := h
    change (∀ p ∈ ps', p.IsPermission) ↔ ∀ p ∈ ps, p.IsPermission
    induction ps generalizing ps' with
    | nil => rw [show ps' = [] from h]
    | cons p ps ih =>
      obtain ⟨key, value, span⟩ := p
      obtain ⟨value', rest, first, later, rfl⟩ := h
      rw [List.forall_mem_cons, List.forall_mem_cons, ih rest later]
      have same : (⟨key, value', span⟩ : Property).IsPermission
          ↔ (⟨key, value, span⟩ : Property).IsPermission := by
        have policy := isPermission_of_reorders first
        constructor
        · exact fun ⟨known, allowed⟩ ↦ ⟨known, policy ▸ allowed⟩
        · exact fun ⟨known, allowed⟩ ↦ ⟨known, policy.symm ▸ allowed⟩
      rw [same]

private theorem ParallelOf.valid_congr {join onFail : Option Ident} {count : Option (Located Nat)}
    {keys : List Ident} {body body' : List Statement} {span : Span}
    (same : body'.any Statement.isExecutable = body.any Statement.isExecutable) :
    ParallelOf.Valid ⟨join, onFail, count, keys, body', span⟩
      ↔ ParallelOf.Valid ⟨join, onFail, count, keys, body, span⟩ :=
  ⟨fun h ↦ { h with body := same ▸ h.body }, fun h ↦ { h with body := same.symm ▸ h.body }⟩

section

-- the theorems of the mutual block share the hypothesis, and some need it for the others only
set_option linter.unusedSectionVars false

variable {k k' : Knowledge} (agrees : k.Agrees k')
include agrees

mutual

/-- A statement is as valid as it was when branches in it have traded places. -/
theorem Statement.Reorders.valid_iff {p : Place} {Γ : Env} :
    {s t : Statement} → s.Reorders t → (t.Valid k' p Γ ↔ s.Valid k p Γ)
  | .comment _, _, rfl => Iff.rfl
  | .importSkill _, _, rfl => by rw [Statement.Valid, Statement.Valid, agrees.options]
  | .throw _, _, rfl => Iff.rfl
  | .agent ⟨_, _, _, _, _, _, _, _⟩, _, ⟨_, _, permissions, properties, rfl⟩ =>
    have allowed := permissions_of_reorder permissions
    have none := properties_eq_nil_of_reorder properties
    ⟨.of_agrees agrees.symm allowed.1 none.symm, .of_agrees agrees allowed.2 none⟩
  | .block ⟨_, params, body, _⟩, _, ⟨_, h, rfl⟩ =>
    and_congr_right fun _ ↦ bodyValid_of_reorders body h
  | .binding _ ⟨_, _, _⟩, _, ⟨_, h, rfl⟩ => and_congr_left fun _ ↦ h.valid_iff
  | .assignment ⟨_, _, _⟩, _, ⟨_, h, rfl⟩ => and_congr_left fun _ ↦ h.valid_iff
  | .action a, _, ⟨b, h, rfl⟩ => by
    have named : b.resultName? = a.resultName? := by
      cases a with
      | session | doBlock | invoke =>
        obtain ⟨_, _, rfl⟩ := h
        rfl
      | pipe =>
        obtain ⟨_, _, _, _, rfl⟩ := h
        rfl
    rw [Statement.Valid, Statement.Valid, named]
    exact and_congr_left fun _ ↦ h.valid_iff
  | .parallel ⟨_, _, _, _, body, _⟩, _, ⟨_, _, h, trades, rfl⟩ => by
    have some := any_isExecutable_of_reorders h
    refine and_congr (ParallelOf.valid_congr (trades.perm.any_eq.symm.trans some)) ?_
    refine .trans ?_ (bodyValid_of_reorders body h)
    exact ⟨trades.symm.bodyValid rfl, trades.bodyValid rfl⟩
  | .repeated ⟨_, _, body, _⟩, _, ⟨_, h, rfl⟩ => bodyValid_of_reorders body h
  | .forEach ⟨_, _, _, _, _, _, body, _⟩, _, ⟨_, _, collection, h, rfl⟩ =>
    and_congr collection.valid_iff (and_congr_right fun _ ↦ bodyValid_of_reorders body h)
  | .loop ⟨_, _, _, _, body, _⟩, _, ⟨_, h, rfl⟩ => bodyValid_of_reorders body h
  | .attempt ⟨body, handler, cleanup, _⟩, _, ⟨_, _, _, h, handled, cleaned, rfl⟩ =>
    and_congr (bodyValid_of_reorders body h)
      (and_congr (handlerValid_of_reorders handler handled)
        (clauseValid_of_reorders cleanup cleaned))
  | .choice ⟨_, options, _⟩, _, ⟨_, h, rfl⟩ => optionsValid_of_reorder options h
  | .conditional ⟨branches, otherwise, _⟩, _, ⟨_, _, h, rest, rfl⟩ =>
    and_congr (branchesValid_of_reorder branches h) (clauseValid_of_reorders otherwise rest)
termination_by structural s => s

private theorem bodyValid_of_reorders {p : Place} {Γ : Env} {body' : List Statement} :
    (body : List Statement) → BodyReorders body body' →
      (BodyValid k' p Γ body' ↔ BodyValid k p Γ body)
  | [], h => by
    rw [show body' = [] from h]
    exact Iff.rfl
  | s :: body, h => by
    obtain ⟨t, rest, first, later, rfl⟩ := h
    rw [BodyValid, BodyValid, first.past, first.envAfter]
    exact and_congr first.valid_iff (bodyValid_of_reorders body later)
termination_by structural xs => xs

private theorem handlerValid_of_reorders {p : Place} {Γ : Env} {handler' : Option Handler} :
    (handler : Option Handler) → HandlerReorders handler handler' →
      (HandlerValid k' p Γ handler' ↔ HandlerValid k p Γ handler)
  | none, h => by
    rw [show handler' = none from h]
    exact Iff.rfl
  | some ⟨_, body, _⟩, h => by
    obtain ⟨_, h, rfl⟩ := h
    exact bodyValid_of_reorders body h
termination_by structural xs => xs

private theorem clauseValid_of_reorders {p : Place} {Γ : Env} {clause' : Option Body} :
    (clause : Option Body) → ClauseReorders clause clause' →
      (ClauseValid k' p Γ clause' ↔ ClauseValid k p Γ clause)
  | none, h => by
    rw [show clause' = none from h]
    exact Iff.rfl
  | some ⟨body, _⟩, h => by
    obtain ⟨_, h, rfl⟩ := h
    exact bodyValid_of_reorders body h
termination_by structural xs => xs

private theorem optionsValid_of_reorder {p : Place} {Γ : Env} {options' : List ChoiceOption} :
    (options : List ChoiceOption) → OptionsReorder options options' →
      (OptionsValid k' p Γ options' ↔ OptionsValid k p Γ options)
  | [], h => by
    rw [show options' = [] from h]
    exact Iff.rfl
  | ⟨_, body, _⟩ :: options, h => by
    obtain ⟨_, _, first, later, rfl⟩ := h
    exact and_congr_right fun _ ↦
      and_congr (bodyValid_of_reorders body first) (optionsValid_of_reorder options later)
termination_by structural xs => xs

private theorem branchesValid_of_reorder {p : Place} {Γ : Env} {branches' : List Branch} :
    (branches : List Branch) → BranchesReorder branches branches' →
      (BranchesValid k' p Γ branches' ↔ BranchesValid k p Γ branches)
  | [], h => by
    rw [show branches' = [] from h]
    exact Iff.rfl
  | ⟨_, _, body, _⟩ :: branches, h => by
    obtain ⟨_, _, first, later, rfl⟩ := h
    exact and_congr (bodyValid_of_reorders body first) (branchesValid_of_reorder branches later)
termination_by structural xs => xs

private theorem Action.Reorders.valid_iff {p : Place} {Γ : Env} :
    {a b : Action} → a.Reorders b → (b.Valid k' p Γ ↔ a.Valid k p Γ)
  | .session ⟨_, _, _, _, _, _, _, _, _, _, _, _⟩, _, ⟨_, h, rfl⟩ =>
    have none := properties_eq_nil_of_reorder h
    ⟨.of_agrees agrees.symm none.symm, .of_agrees agrees none⟩
  | .pipe ⟨_, operations, _⟩, _, ⟨_, _, input, h, rfl⟩ =>
    and_congr input.valid_iff (operationsValid_of_reorder operations h)
  | .doBlock ⟨body, _⟩, _, ⟨_, h, rfl⟩ => bodyValid_of_reorders body h
  | .invoke ⟨_, args, _⟩, _, ⟨_, h, rfl⟩ => by
    rw [Action.Valid, Action.Valid, agrees.arity, length_of_valuesReorder h]
    exact and_congr_left fun _ ↦ valuesValid_of_reorder args h
termination_by structural a => a

private theorem operationsValid_of_reorder {p : Place} {Γ : Env} {operations' : List Operation} :
    (operations : List Operation) → OperationsReorder operations operations' →
      (OperationsValid k' p Γ operations' ↔ OperationsValid k p Γ operations)
  | [], h => by
    rw [show operations' = [] from h]
    exact Iff.rfl
  | ⟨_, _, _, body, _⟩ :: operations, h => by
    obtain ⟨_, _, first, later, rfl⟩ := h
    exact and_congr_right fun _ ↦
      and_congr (bodyValid_of_reorders body first) (operationsValid_of_reorder operations later)
termination_by structural xs => xs

private theorem Expr.Reorders.valid_iff {p : Place} {Γ : Env} :
    {e f : Expr} → e.Reorders f → (f.Valid k' p Γ ↔ e.Valid k p Γ)
  | .action _, _, ⟨_, h, rfl⟩ => h.valid_iff
  | .array ⟨items, _⟩, _, ⟨_, h, rfl⟩ => valuesValid_of_reorder items h
  | .object ⟨entries, _⟩, _, ⟨_, h, rfl⟩ => entriesValid_of_reorder entries h
  | .string _, _, rfl | .number _, _, rfl | .ident _, _, rfl | .discretion _, _, rfl => Iff.rfl
termination_by structural e => e

private theorem valuesValid_of_reorder {p : Place} {Γ : Env} {es' : List Expr} :
    (es : List Expr) → ValuesReorder es es' → (ValuesValid k' p Γ es' ↔ ValuesValid k p Γ es)
  | [], h => by
    rw [show es' = [] from h]
    exact Iff.rfl
  | e :: es, h => by
    obtain ⟨f, rest, first, later, rfl⟩ := h
    exact and_congr first.valid_iff (valuesValid_of_reorder es later)
termination_by structural xs => xs

private theorem entriesValid_of_reorder {p : Place} {Γ : Env} {entries' : List Entry} :
    (entries : List Entry) → EntriesReorder entries entries' →
      (EntriesValid k' p Γ entries' ↔ EntriesValid k p Γ entries)
  | [], h => by
    rw [show entries' = [] from h]
    exact Iff.rfl
  | ⟨_, some value⟩ :: entries, h => by
    obtain ⟨_, _, first, later, rfl⟩ := h
    exact and_congr first.valid_iff (entriesValid_of_reorder entries later)
  | ⟨_, none⟩ :: entries, h => by
    obtain ⟨_, later, rfl⟩ := h
    exact and_congr_right fun _ ↦ entriesValid_of_reorder entries later
termination_by structural xs => xs

end

end

/-- The order of names does not matter to their being distinct. -/
theorem Distinct.perm {xs ys : List Ident} (h : xs.Perm ys) : Distinct xs ↔ Distinct ys :=
  (h.map Located.val).nodup_iff

/-- Definitions in another order, of blocks with different names. -/
theorem Definitions.agrees_of_perm {options : ValidatorOptions} {d d' : Definitions}
    (agents : d'.agents.Perm d.agents) (blocks : d'.blocks.Perm d.blocks)
    (skills : d'.skills.Perm d.skills) (distinct : Distinct (d.blocks.map Prod.fst)) :
    Knowledge.Agrees { options, definitions := d } { options, definitions := d' } where
  options := rfl
  hasAgent _ := agents.any_eq
  hasSkill _ := skills.any_eq
  arity name := by
    rw [Distinct, List.map_map] at distinct
    rw [arity?, arity?]
    exact congrArg _ (find?_of_perm blocks.symm distinct name).symm

/-- Whether a program is valid does not depend on the order of the branches of its parallel blocks,
as far as these are independent. -/
theorem validate_reorders {p q : Program} (h : p.Reorders q) (options : ValidatorOptions) :
    (validate q options).isValid = (validate p options).isValid := by
  have definitions := bodyDefinitions_perm p.statements h
  have agents : (Definitions.ofProgram q).agents.Perm (Definitions.ofProgram p).agents := by
    simpa only [Definitions.ofProgram_eq] using definitions.filterMap _
  have blocks : (Definitions.ofProgram q).blocks.Perm (Definitions.ofProgram p).blocks := by
    simpa only [Definitions.ofProgram_eq] using definitions.filterMap _
  have skills : (Definitions.ofProgram q).skills.Perm (Definitions.ofProgram p).skills := by
    simpa only [Definitions.ofProgram_eq] using definitions.filterMap _
  have sameAgents := Distinct.perm agents
  have sameBlocks := Distinct.perm (blocks.map Prod.fst)
  rw [Bool.eq_iff_iff, validate_isValid_iff, validate_isValid_iff]
  have statements (distinct : Distinct ((Definitions.ofProgram p).blocks.map Prod.fst)) :
      BodyValid { options, definitions := .ofProgram q } {} [Env.emptyScope] q.statements
        ↔ BodyValid { options, definitions := .ofProgram p } {} [Env.emptyScope] p.statements :=
    bodyValid_of_reorders (Definitions.agrees_of_perm agents blocks skills distinct) p.statements h
  constructor
  · intro valid
    have distinct := sameBlocks.1 valid.blocks
    exact ⟨sameAgents.1 valid.agents, distinct, (statements distinct).1 valid.statements⟩
  · intro valid
    exact ⟨sameAgents.2 valid.agents, sameBlocks.2 valid.blocks,
      (statements valid.blocks).2 valid.statements⟩

/-- Two branches that see the same result and name their own. -/
theorem validate_reorders_results :
    let p := (parse ("let c = session \"x\"\nparallel:\n  a = session \"y {c}\"\n"
      ++ "  session b: \x7b prompt: \"z\", context: c \x7d\nsession \"{a} {b}\"\n")).program
    (validate p {}).isValid = true
      ∧ ∃ first b last, p.statements = [first, .parallel b, last] ∧ ∃ q : Program,
        q.statements = [first, .parallel { b with body := b.body.reverse }, last]
          ∧ p.Reorders q ∧ (validate q {}).isValid = (validate p {}).isValid := by
  intro p
  refine ⟨by decide +kernel, ?_⟩
  have count : p.statements.length = 3 := by decide +kernel
  obtain ⟨first, second, last, statements⟩ : ∃ a b c, p.statements = [a, b, c] := by
    generalize p.statements = body at count
    rcases body with _ | ⟨a, _ | ⟨b, _ | ⟨c, _ | ⟨d, rest⟩⟩⟩⟩
    · cases count
    · cases count
    · cases count
    · exact ⟨a, b, c, rfl⟩
    · cases count
  have shape : ((p.statements[1]?.bind Statement.parallel?).any fun b ↦
      decide (b.body.Pairwise Statement.Independent)) = true := by decide +kernel
  rw [statements] at shape
  obtain ⟨b, is, apart⟩ := (Option.any_eq_true _ _).1 shape
  obtain rfl := Statement.eq_of_parallel? is
  let q : Program := { statements := [first, .parallel { b with body := b.body.reverse }, last] }
  have reorders : p.Reorders q := by
    have traded : Trades b.body b.body.reverse :=
      .of_perm b.body.reverse_perm.symm (of_decide_eq_true apart)
    rcases b with ⟨join, onFail, count, keys, body, span⟩
    rw [Program.Reorders, statements]
    exact ⟨_, _, .refl first, ⟨_, _, ⟨_, _, .refl body, traded, rfl⟩, .refl [last], rfl⟩, rfl⟩
  exact ⟨first, b, last, statements, q, rfl, reorders, validate_reorders reorders {}⟩

/-- The second branch reads what the first one declares. -/
theorem swapped_branches_invalid :
    let source := "parallel:\n  a = session \"x\"\n  b = session \"y {a}\"\n"
    let p := (parse source).program
    (parse source).hasErrors = false ∧ (validate p {}).isValid = true
      ∧ ∃ b : Parallel, p.statements = [.parallel b] ∧ b.body.all Statement.isExecutable = true
        ∧ ∃ body, body.Perm b.body
          ∧ (validate { p with statements := [.parallel { b with body }] } {}).isValid = false := by
  intro source p
  refine ⟨by decide +kernel, by decide +kernel, ?_⟩
  obtain ⟨first, statements⟩ := List.length_eq_one_iff.1
    (show p.statements.length = 1 by decide +kernel)
  have shape : ((p.statements[0]?.bind Statement.parallel?).any fun b ↦
      b.body.all Statement.isExecutable
        && !(validate { p with statements := [.parallel { b with body := b.body.reverse }] }
          {}).isValid) = true := by decide +kernel
  rw [statements] at shape
  obtain ⟨b, is, swapped⟩ := (Option.any_eq_true _ _).1 shape
  obtain rfl := Statement.eq_of_parallel? is
  obtain ⟨executable, invalid⟩ := Bool.and_eq_true_iff.1 swapped
  exact ⟨b, statements, executable, _, b.body.reverse_perm, by simpa using invalid⟩

end ProseLang
