import ProseLang.Proofs.Canonical.Settled
import ProseLang.Validation.Definitions

/-!
# Definitions in canonical programs

What a program defines is the same after it is brought into canonical form (`ofProgram_canonical`):
expansion neither makes nor removes an agent, a block or an import, at any depth.
-/

namespace ProseLang

/-- Something that a part of a program defines. -/
inductive Definition
  | agent (name : Ident)
  | block (name : Ident) (arity : Nat)
  | skill (name : Ident)

namespace Definition

/-- The name of an agent. -/
def agent? : Definition → Option Ident
  | agent name => some name
  | _ => none

/-- The name of a block, with the number of its parameters. -/
def block? : Definition → Option (Ident × Nat)
  | block name arity => some (name, arity)
  | _ => none

/-- The name of a skill. -/
def skill? : Definition → Option Ident
  | skill name => some name
  | _ => none

end Definition

/-- What a part defines itself. -/
def Visit.definition? : Visit → Option Definition
  | .statement (.agent a) => some (.agent a.name)
  | .statement (.block b) => some (.block b.name b.params.length)
  | .statement (.importSkill i) => some (.skill ⟨i.skill.value, i.skill.span⟩)
  | _ => none

/-- What parts define. -/
def definitionsAmong (vs : List Visit) : List Definition := vs.filterMap Visit.definition?

/-- The definitions among parts are those of each part in order. -/
theorem definitionsAmong_eq (vs : List Visit) :
    definitionsAmong vs = vs.flatMap fun v ↦ v.definition?.toList := by
  induction vs with
  | nil => rfl
  | cons v vs ih =>
    rw [definitionsAmong, List.filterMap_cons, List.flatMap_cons, ← ih]
    cases v.definition? <;> rfl

private theorem definitionsAmong_append (a b : List Visit) :
    definitionsAmong (a ++ b) = definitionsAmong a ++ definitionsAmong b := List.filterMap_append

private theorem definitionsAmong_cons_of_none {v : Visit} (vs : List Visit)
    (h : v.definition? = none) :
    definitionsAmong (v :: vs) = definitionsAmong vs := List.filterMap_cons_none h

private theorem definitionsAmong_strings (s : Option StringLit) :
    definitionsAmong (Visit.strings s) = [] := by
  cases s <;> rfl

/-- What statements define, at any depth. -/
def bodyDefinitions (body : List Statement) : List Definition :=
  definitionsAmong (bodyVisits Definitions.inside body)

/-- What a program defines follows from the list of its definitions. -/
theorem Definitions.ofProgram_eq (p : Program) :
    ofProgram p = ⟨(bodyDefinitions p.statements).filterMap Definition.agent?,
      (bodyDefinitions p.statements).filterMap Definition.block?,
      (bodyDefinitions p.statements).filterMap Definition.skill?⟩ := by
  simp only [bodyDefinitions, definitionsAmong, List.filterMap_filterMap]
  rw [ofProgram]
  congr 1
  all_goals
    congr 1
    funext v
    cases v with
    | statement s => cases s <;> rfl
    | _ => rfl

/-- What a statement defines, at any depth. -/
def Statement.definitions (s : Statement) : List Definition :=
  definitionsAmong (Visit.opened Definitions.inside (.statement s) (s.visits Definitions.inside))

/-- A body defines what its statements define, in order. -/
@[simp] theorem bodyDefinitions_cons (s : Statement) (body : List Statement) :
    bodyDefinitions (s :: body) = s.definitions ++ bodyDefinitions body := by
  rw [bodyDefinitions, bodyVisits, definitionsAmong_append, definitionsAmong_cons_of_none _ rfl]
  rfl

/-- What an action defines within it. -/
def Action.definitions (a : Action) : List Definition :=
  definitionsAmong (a.visits Definitions.inside)

/-- What a value defines within it. -/
def Expr.definitions (e : Expr) : List Definition :=
  definitionsAmong (e.visits Definitions.inside)

/-- What a handler defines. -/
def handlerDefinitions (h : Option Handler) : List Definition :=
  definitionsAmong (handlerVisits Definitions.inside h)

/-- What a clause that has a body only defines. -/
def clauseDefinitions (c : Option Body) : List Definition :=
  definitionsAmong (clauseVisits Definitions.inside c)

/-- What the options of a choice define. -/
def optionDefinitions (options : List ChoiceOption) : List Definition :=
  definitionsAmong (optionVisits Definitions.inside options)

/-- What conditional branches define. -/
def branchDefinitions (branches : List Branch) : List Definition :=
  definitionsAmong (branchVisits Definitions.inside branches)

/-- What pipe operations define. -/
def operationDefinitions (operations : List Operation) : List Definition :=
  definitionsAmong (operationVisits Definitions.inside operations)

/-- What values define. -/
def valueDefinitions (es : List Expr) : List Definition :=
  definitionsAmong (valueVisits Definitions.inside es)

/-- What the entries of an object define. -/
def entryDefinitions (entries : List Entry) : List Definition :=
  definitionsAmong (entryVisits Definitions.inside entries)

section

variable {name : Ident} {span : Span} {body : List Statement} {value : Expr}

/-- The definition of a block defines the block and what its body defines. -/
@[simp] theorem Statement.definitions_block (params : List Ident) :
    (Statement.block ⟨name, params, body, span⟩).definitions
      = .block name params.length :: bodyDefinitions body := rfl

/-- A binding defines what its value defines. -/
@[simp] theorem Statement.definitions_binding (kind : BindingKind) :
    (Statement.binding kind ⟨name, value, span⟩).definitions = value.definitions := rfl

/-- An assignment defines what its value defines. -/
@[simp] theorem Statement.definitions_assignment :
    (Statement.assignment ⟨name, value, span⟩).definitions = value.definitions := rfl

/-- An action as a statement defines what it does as an action. -/
@[simp] theorem Statement.definitions_action (a : Action) :
    (Statement.action a).definitions = a.definitions := rfl

/-- A parallel block defines what its branches define. -/
@[simp] theorem Statement.definitions_parallel (p : Parallel) :
    (Statement.parallel p).definitions = bodyDefinitions p.body := rfl

/-- A `repeat` defines what its body defines. -/
@[simp] theorem Statement.definitions_repeated (count : Located Nat) (index : Option AsBinding) :
    (Statement.repeated ⟨count, index, body, span⟩).definitions = bodyDefinitions body := rfl

/-- A `for` defines what its collection and its body define. -/
@[simp] theorem Statement.definitions_forEach (item : Ident) (index : Option Ident)
    (isParallel : Bool) (forKeyword inKeyword : Span) :
    (Statement.forEach ⟨item, index, value, isParallel, forKeyword, inKeyword, body,
      span⟩).definitions
      = value.definitions ++ bodyDefinitions body := List.filterMap_append

/-- A `loop` defines what its body defines. -/
@[simp] theorem Statement.definitions_loop (condition : Option LoopCondition)
    (maxIterations : Option (Located Nat)) (index : Option AsBinding) (keys : List Ident) :
    (Statement.loop ⟨condition, maxIterations, index, keys, body, span⟩).definitions
      = bodyDefinitions body := by
  cases condition <;> rfl

/-- A `try` defines what its three bodies define. -/
@[simp] theorem Statement.definitions_attempt (handler : Option Handler) (cleanup : Option Body) :
    (Statement.attempt ⟨body, handler, cleanup, span⟩).definitions
      = bodyDefinitions body ++ handlerDefinitions handler ++ clauseDefinitions cleanup :=
  List.filterMap_append.trans (congrArg (· ++ _) List.filterMap_append)

/-- A `choice` defines what its options define. -/
@[simp] theorem Statement.definitions_choice (criteria : Discretion) (options : List ChoiceOption) :
    (Statement.choice ⟨criteria, options, span⟩).definitions = optionDefinitions options := rfl

/-- An `if` defines what its branches define. -/
@[simp] theorem Statement.definitions_conditional (branches : List Branch)
    (otherwise : Option Body) : (Statement.conditional ⟨branches, otherwise, span⟩).definitions
      = branchDefinitions branches ++ clauseDefinitions otherwise := List.filterMap_append

/-- A handler defines what its body defines. -/
@[simp] theorem handlerDefinitions_some (error : Option AsBinding) :
    handlerDefinitions (some ⟨error, body, span⟩) = bodyDefinitions body := rfl

/-- A clause defines what its body defines. -/
@[simp] theorem clauseDefinitions_some : clauseDefinitions (some ⟨body, span⟩)
    = bodyDefinitions body := rfl

/-- Options define what their bodies define, in order. -/
@[simp] theorem optionDefinitions_cons (label : StringLit) (options : List ChoiceOption) :
    optionDefinitions (⟨label, body, span⟩ :: options)
      = bodyDefinitions body ++ optionDefinitions options := List.filterMap_append

/-- Branches define what their bodies define, in order. -/
@[simp] theorem branchDefinitions_cons (keyword : Span) (condition : Discretion)
    (branches : List Branch) : branchDefinitions (⟨keyword, condition, body, span⟩ :: branches)
      = bodyDefinitions body ++ branchDefinitions branches := List.filterMap_append

/-- Operations define what their bodies define, in order. -/
@[simp] theorem operationDefinitions_cons (operator : Located PipeOperator)
    (item accumulator : Option Ident) (operations : List Operation) :
    operationDefinitions (⟨operator, item, accumulator, body, span⟩ :: operations)
      = bodyDefinitions body ++ operationDefinitions operations := List.filterMap_append

/-- Only the properties of a session can define something. -/
@[simp] theorem Action.definitions_session (s : Session) :
    (Action.session s).definitions
      = definitionsAmong (propertyVisits Definitions.inside s.properties) := by
  rw [Action.definitions, Action.visits, definitionsAmong_append, definitionsAmong_strings,
    definitionsAmong_cons_of_none _ rfl]
  rfl

/-- A pipe defines what its input and its operations define. -/
@[simp] theorem Action.definitions_pipe (operations : List Operation) :
    (Action.pipe ⟨value, operations, span⟩).definitions
      = value.definitions ++ operationDefinitions operations := List.filterMap_append

/-- A `do` block defines what its body defines. -/
@[simp] theorem Action.definitions_doBlock :
    (Action.doBlock ⟨body, span⟩).definitions = bodyDefinitions body := rfl

/-- A call defines what its arguments define. -/
@[simp] theorem Action.definitions_invoke (args : List Expr) :
    (Action.invoke ⟨name, args, span⟩).definitions = valueDefinitions args := rfl

/-- An action as a value defines what it does as an action. -/
@[simp] theorem Expr.definitions_action (a : Action) :
    (Expr.action a).definitions = a.definitions := rfl

/-- An array defines what its items define. -/
@[simp] theorem Expr.definitions_array (items : List Expr) :
    (Expr.array ⟨items, span⟩).definitions = valueDefinitions items := rfl

/-- An object defines what its entries define. -/
@[simp] theorem Expr.definitions_object (entries : List Entry) :
    (Expr.object ⟨entries, span⟩).definitions = entryDefinitions entries := rfl

/-- Values define what each of them defines, in order. -/
@[simp] theorem valueDefinitions_cons (es : List Expr) :
    valueDefinitions (value :: es) = value.definitions ++ valueDefinitions es :=
  List.filterMap_append

/-- An entry defines what its value defines. -/
@[simp] theorem entryDefinitions_some (entries : List Entry) :
    entryDefinitions (⟨name, some value⟩ :: entries)
      = value.definitions ++ entryDefinitions entries := List.filterMap_append

/-- An entry without a value defines nothing. -/
@[simp] theorem entryDefinitions_none (entries : List Entry) :
    entryDefinitions (⟨name, none⟩ :: entries) = entryDefinitions entries := rfl

end

/-! ## Canonical form -/

private theorem Statement.definitions_asBranch (n : Nat) (s : Statement) :
    (s.asBranch n).definitions = s.definitions := by
  cases s with
  | action a =>
    cases a with
    | session t =>
      rw [asBranch]
      split <;> rfl
    | pipe | doBlock | invoke => rfl
  | _ => rfl

private theorem Statement.withName_definitions (k : Expansion) (s : Statement) :
    Yields (fun t ↦ t.definitions = s.definitions) (s.withName k) := by
  cases s with
  | action a =>
    cases a with
    | session t =>
      rw [withName]
      split
      · exact .pure rfl
      · exact .bind (.any _) fun name _ ↦ .pure (by simp)
    | pipe | doBlock | invoke => exact .pure rfl
  | _ => exact .pure rfl

private theorem Expansion.properties_session (k : Expansion) (context : Context) (s : Session) :
    (k.session context s).properties = s.properties := by
  have kept : (k.withAgent s).properties = s.properties := by
    rw [withAgent]
    split <;> rfl
  exact kept

mutual

private theorem Statement.canonical_definitions (k : Expansion) (context : Context) :
    (s : Statement) → Yields (fun t ↦ t.definitions = s.definitions) (s.canonical k context)
  | .comment _ | .importSkill _ | .agent _ | .throw _ => .pure rfl
  | .block ⟨_, _, body, _⟩ =>
    .bind (canonicalBody_definitions k .empty body) fun _ hb ↦ .pure (by simp [hb])
  | .binding _ ⟨_, value, _⟩ =>
    .bind (value.canonical_definitions k context) fun _ hv ↦ .pure (by simp [hv])
  | .assignment ⟨_, value, _⟩ =>
    .bind (value.canonical_definitions k context) fun _ hv ↦ .pure (by simp [hv])
  | .action a => .bind (a.canonical_definitions k context) fun _ ha ↦ .pure (by simp [ha])
  | .parallel ⟨_, _, _, _, body, _⟩ =>
    .bind (canonicalBranches_definitions k context 0 body) fun _ hb ↦ .pure (by simp [hb])
  | .repeated ⟨_, _, body, _⟩ =>
    .bind (canonicalBody_definitions k context body) fun _ hb ↦ .pure (by simp [hb])
  | .forEach ⟨_, _, collection, _, _, _, body, _⟩ =>
    .bind (collection.canonical_definitions k context) fun _ hc ↦
      .bind (canonicalBody_definitions k context body) fun _ hb ↦ .pure (by simp [hc, hb])
  | .loop ⟨_, _, _, _, body, _⟩ =>
    .bind (canonicalBody_definitions k context body) fun _ hb ↦ .pure (by simp [hb])
  | .attempt ⟨body, handler, cleanup, _⟩ =>
    .bind (canonicalBody_definitions k context body) fun _ hb ↦
      .bind (canonicalHandler_definitions k context handler) fun _ hh ↦
        .bind (canonicalClause_definitions k context cleanup) fun _ hc ↦ .pure (by
          simp [hb, hh, hc])
  | .choice ⟨_, options, _⟩ =>
    .bind (canonicalOptions_definitions k context options) fun _ ho ↦ .pure (by simp [ho])
  | .conditional ⟨branches, otherwise, _⟩ =>
    .bind (canonicalConditions_definitions k context branches) fun _ hb ↦
      .bind (canonicalClause_definitions k context otherwise) fun _ ho ↦ .pure (by simp [hb, ho])

/-- Expansion neither makes nor removes a definition. -/
theorem canonicalBody_definitions (k : Expansion) (context : Context) :
    (body : List Statement) →
      Yields (fun body' ↦ bodyDefinitions body' = bodyDefinitions body)
        (canonicalBody k context body)
  | [] => .pure rfl
  | s :: body =>
    .bind (s.canonical_definitions k context) fun t ht ↦
      .bind (t.withName_definitions k) fun _ hu ↦
        .bind (canonicalBody_definitions k _ body) fun _ hb ↦ .pure (by simp [hu, ht, hb])

private theorem canonicalBranches_definitions (k : Expansion) (context : Context) (n : Nat) :
    (body : List Statement) →
      Yields (fun body' ↦ bodyDefinitions body' = bodyDefinitions body)
        (canonicalBranches k context n body)
  | [] => .pure rfl
  | s :: body =>
    .bind (s.canonical_definitions k context) fun t ht ↦ by
      split
      · exact .bind (canonicalBranches_definitions k context (n + 1) body) fun _ hb ↦
          .pure (by simp [t.definitions_asBranch, ht, hb])
      · exact .bind (canonicalBranches_definitions k context n body) fun _ hb ↦
          .pure (by simp [ht, hb])

private theorem canonicalHandler_definitions (k : Expansion) (context : Context) :
    (handler : Option Handler) →
      Yields (fun handler' ↦ handlerDefinitions handler' = handlerDefinitions handler)
        (canonicalHandler k context handler)
  | none => .pure rfl
  | some ⟨_, body, _⟩ =>
    .bind (canonicalBody_definitions k context body) fun _ hb ↦ .pure (by simp [hb])

private theorem canonicalClause_definitions (k : Expansion) (context : Context) :
    (clause : Option Body) →
      Yields (fun clause' ↦ clauseDefinitions clause' = clauseDefinitions clause)
        (canonicalClause k context clause)
  | none => .pure rfl
  | some ⟨body, _⟩ =>
    .bind (canonicalBody_definitions k context body) fun _ hb ↦ .pure (by simp [hb])

private theorem canonicalOptions_definitions (k : Expansion) (context : Context) :
    (options : List ChoiceOption) →
      Yields (fun options' ↦ optionDefinitions options' = optionDefinitions options)
        (canonicalOptions k context options)
  | [] => .pure rfl
  | ⟨_, body, _⟩ :: options =>
    .bind (canonicalBody_definitions k context body) fun _ hb ↦
      .bind (canonicalOptions_definitions k context options) fun _ ho ↦ .pure (by simp [hb, ho])

private theorem canonicalConditions_definitions (k : Expansion) (context : Context) :
    (branches : List Branch) →
      Yields (fun branches' ↦ branchDefinitions branches' = branchDefinitions branches)
        (canonicalConditions k context branches)
  | [] => .pure rfl
  | ⟨_, _, body, _⟩ :: branches =>
    .bind (canonicalBody_definitions k context body) fun _ hb ↦
      .bind (canonicalConditions_definitions k context branches) fun _ hr ↦ .pure (by
        simp [hb, hr])

private theorem Action.canonical_definitions (k : Expansion) (context : Context) :
    (a : Action) → Yields (fun b ↦ b.definitions = a.definitions) (a.canonical k context)
  | .session s => .pure (by simp [k.properties_session])
  | .pipe ⟨input, operations, _⟩ =>
    .bind (input.canonical_definitions k context) fun _ hi ↦
      .bind (canonicalOperations_definitions k operations) fun _ ho ↦ .pure (by simp [hi, ho])
  | .doBlock ⟨body, _⟩ =>
    .bind (canonicalBody_definitions k context body) fun _ hb ↦ .pure (by simp [hb])
  | .invoke ⟨_, args, _⟩ =>
    .bind (canonicalValues_definitions k context args) fun _ ha ↦ .pure (by simp [ha])

private theorem canonicalOperations_definitions (k : Expansion) :
    (operations : List Operation) →
      Yields (fun operations' ↦ operationDefinitions operations' = operationDefinitions operations)
        (canonicalOperations k operations)
  | [] => .pure rfl
  | ⟨_, _, _, body, _⟩ :: operations =>
    .bind (canonicalBody_definitions k _ body) fun _ hb ↦
      .bind (canonicalOperations_definitions k operations) fun _ ho ↦ .pure (by simp [hb, ho])

private theorem Expr.canonical_definitions (k : Expansion) (context : Context) :
    (e : Expr) → Yields (fun x ↦ x.definitions = e.definitions) (e.canonical k context)
  | .action a => .bind (a.canonical_definitions k context) fun _ ha ↦ .pure (by simp [ha])
  | .array ⟨items, _⟩ =>
    .bind (canonicalValues_definitions k context items) fun _ hi ↦ .pure (by simp [hi])
  | .object ⟨entries, _⟩ =>
    .bind (canonicalEntries_definitions k context entries) fun _ he ↦ .pure (by simp [he])
  | .string _ | .number _ | .ident _ | .discretion _ => .pure rfl

private theorem canonicalValues_definitions (k : Expansion) (context : Context) :
    (es : List Expr) →
      Yields (fun es' ↦ valueDefinitions es' = valueDefinitions es) (canonicalValues k context es)
  | [] => .pure rfl
  | e :: es =>
    .bind (e.canonical_definitions k context) fun _ he ↦
      .bind (canonicalValues_definitions k context es) fun _ hs ↦ .pure (by simp [he, hs])

private theorem canonicalEntries_definitions (k : Expansion) (context : Context) :
    (entries : List Entry) →
      Yields (fun entries' ↦ entryDefinitions entries' = entryDefinitions entries)
        (canonicalEntries k context entries)
  | [] => .pure rfl
  | ⟨_, some value⟩ :: entries =>
    .bind (value.canonical_definitions k context) fun _ hv ↦
      .bind (canonicalEntries_definitions k context entries) fun _ hs ↦ .pure (by simp [hv, hs])
  | ⟨_, none⟩ :: entries =>
    .bind (canonicalEntries_definitions k context entries) fun _ hs ↦ .pure (by simp [hs])

end

/-- A program and its canonical form define the same. -/
theorem Definitions.ofProgram_canonical (p : Program) : ofProgram p.canonical = ofProgram p := by
  have same : bodyDefinitions p.canonical.statements = bodyDefinitions p.statements :=
    canonicalBody_definitions _ _ _ 0
  rw [ofProgram_eq, ofProgram_eq, same]

end ProseLang
