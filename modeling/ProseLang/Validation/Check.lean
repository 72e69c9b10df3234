import ProseLang.Validation.Definitions
import ProseLang.Validation.Options
import ProseLang.Validation.Scope

/-!
# Checking a program

One pass over a program in the order of its text. It carries the scopes that are open and gathers
findings (`CheckState`); what stays the same throughout is `Knowledge`, and what depends on the
constructs around a statement is `Place`.

A statement that writes no context for a session sees the result of the one before it, and that
counts as a use of the result. So does being the last statement of a nested body, as the result of
the body is its result.
-/

namespace ProseLang

/-- What is known about a program as a whole (`Checker`). -/
structure Knowledge where
  options : ValidatorOptions
  definitions : Definitions
  /-- The order in which a scope is asked for its symbols when it is closed. -/
  enumeration : Enumeration := .declared

/-- What the constructs around a statement say about it (`Checker`). -/
structure Place where
  /-- Whether the statement is a branch of a parallel block. -/
  isBranch : Bool := false
  /-- Whether a failure is being handled. -/
  inHandler : Bool := false
  /-- Whether the statement is part of another. -/
  nested : Bool := false
  /-- Whether imports may still follow. -/
  importsOpen : Bool := true

namespace Place

/-- The place of the statements in a body with a scope of its own. -/
def inBody (p : Place) : Place := { p with isBranch := false, nested := true, importsOpen := false }

/-- The place of the statements in a handler. -/
def handling (p : Place) : Place := { p.inBody with inHandler := true }

/-- The place of the branches of a parallel block. -/
def branches (p : Place) : Place :=
  { p with isBranch := true, nested := true, importsOpen := false }

/-- The place of the statements that follow a statement. -/
def past (p : Place) (s : Statement) : Place :=
  match s with
  | .importSkill _ | .comment _ => p
  | _ => { p with importsOpen := false }

end Place

/-- What a check carries along (`Checker`). -/
structure CheckState where
  scopes : Scopes
  findings : List Finding := []

/-- A check of a part of a program: it notes findings and declares names (`Checker`). -/
abbrev Check := StateM CheckState

namespace Check

/-- Notes a finding (`Checker::push`). -/
def note (issue : Issue) (span : Span) : Check Unit :=
  modify fun s ↦ { s with findings := s.findings ++ [⟨issue, span⟩] }

/-- Notes a finding if something is the case. -/
def noteIf (condition : Bool) (issue : Issue) (span : Span) : Check Unit :=
  if condition then note issue span else pure ()

/-- Notes that a name is used, if it means something. -/
def markUsed (name : String) : Check Unit :=
  modify fun s ↦ { s with scopes := s.scopes.markUsed name }

/-- The use of a name, which has to mean something. -/
def useName (use : NameUse) (name : Ident) : Check Unit := do
  if (← get).scopes.binds name.val then markUsed name.val
  else note (.undefinedVariable name.val use) name.span

/-- The declaration of a name (`Checker::declare`). A name that was not written may hide another. -/
def declare (name : Ident) (kind : SymbolKind) (written : Bool) : Check Unit := do
  let s ← get
  let (scopes, declared) := s.scopes.declare { name := name.val, kind, span := name.span }
  set { s with scopes }
  match declared with
  | .fresh => pure ()
  | .duplicate first =>
    note (if kind = .parameter then .duplicateParameter name.val first
      else .duplicateBinding name.val first) name.span
  | .shadows outer => noteIf written (.shadowedBinding name.val outer) name.span

/-- The findings about what a scope declares in vain (`Checker::report_unused`). -/
def unusedFindings (k : Knowledge) (s : Scope) : List Finding :=
  if k.options.warnOnUnusedBindings then
    ((k.enumeration.list s).filter fun x ↦ x.kind.isBinding && !x.used).map fun x ↦
      ⟨.unusedBinding x.name, x.span⟩
  else []

/-- Closes the innermost scope. -/
def closeScope (k : Knowledge) : Check Unit :=
  modify fun s ↦ { scopes := s.scopes.tail
                   findings := s.findings ++ unusedFindings k (s.scopes.headD []) }

/-- Opens a scope. -/
def openScope : Check Unit := modify fun s ↦ { s with scopes := [] :: s.scopes }

/-- A name that a construct introduces for its body (`Local`). -/
structure Local where
  name : Ident
  kind : SymbolKind := .bodyLocal
  /-- Whether the name is written, as opposed to a default. -/
  written : Bool := true

/-- The local of a name that is written (`Local::written`). -/
def Local.ofIdent (name : Ident) : Local := { name }

/-- The local of a name or, where none is written, of a default name at `span`
(`Local::optional`). -/
def Local.orDefault (name : Option Ident) (default : String) (span : Span) : Local :=
  match name with
  | some name => { name }
  | none => { name := ⟨default, span⟩, written := false }

/-- The names that an operation introduces. -/
def operationLocals (o : Operation) : List Local :=
  let item := Local.orDefault o.item o.itemName o.operator.span
  if o.operator.val = .reduce then
    [.orDefault o.accumulator o.accumulatorName o.operator.span, item]
  else [item]

/-- Declares the names that a construct introduces. -/
def declareLocals (ls : List Local) : Check Unit :=
  ls.forM fun l ↦ declare l.name l.kind l.written

/-- Checks something in a scope of its own that starts with the given names
(`Checker::scoped_body`). -/
def inScope (k : Knowledge) (ls : List Local) (body : Check Unit) : Check Unit := do
  openScope
  declareLocals ls
  body
  closeScope k

/-! ## Leaves -/

/-- Notes a model that must not be named (`Checker::check_model`). -/
def model (k : Knowledge) (m : Ident) : Check Unit :=
  noteIf (!k.options.isKnownModel m.val) (.unknownModel m.val) m.span

/-- Notes the skills that are not imported (`Checker::check_skills`). -/
def skills (k : Knowledge) (names : List Ident) : Check Unit :=
  names.forM fun s ↦ noteIf (!k.definitions.hasSkill s.val) (.undefinedSkill s.val) s.span

/-- Notes properties as ones that their owner does not have
(`Checker::check_unknown_properties`). -/
def unknownProperties (owner : PropertyOwner) (properties : List Property) : Check Unit :=
  properties.forM fun p ↦ note (.unknownProperty owner p.key.val) p.key.span

/-- The names in a string (`Checker::visit_string`). -/
def string (s : StringLit) : Check Unit := s.interpolations.forM (useName .interpolation)

/-- The names in a context (`Checker::visit_context`). -/
def context (c : Context) : Check Unit := c.names.forM (useName .context)

/-- What permissions are about (`PERMISSION_KINDS`). -/
def permissionKinds : List String := ["read", "write", "bash", "network"]

/-- What permissions say (`PERMISSION_POLICIES`). -/
def permissionPolicies : List String := ["allow", "deny", "prompt"]

/-- Whether a value is a string. -/
def isString : Expr → Bool
  | .string _ => true
  | _ => false

/-- Whether a value says what is permitted: a policy, bare or quoted, or a list of patterns. -/
def isPermission : PropertyValue → Bool
  | .expr (.ident policy) => permissionPolicies.contains policy.val
  | .expr (.string policy) => permissionPolicies.contains policy.value
  | .expr (.array patterns) => patterns.items.all isString
  | _ => false

/-- A permission of an agent (`Checker::check_permissions`). -/
def permission (p : Property) : Check Unit :=
  if permissionKinds.contains p.key.val then
    noteIf (!isPermission p.value) (.wrongPermission p.key.val) p.span
  else note (.unknownPermission p.key.val permissionKinds) p.key.span

/-- Whether a name is written in lower case with underscores or with hyphens, not with both
(`is_snake_or_kebab`). -/
def isSnakeOrKebab (name : List Char) : Bool :=
  (name.head?.any Char.isLower)
    && name.all (fun c ↦ c.isLower || c.isDigit || c = '_' || c = '-')
    && !(name.contains '_' && name.contains '-')

/-- An agent (`Checker::visit_agent`). -/
def agent (k : Knowledge) (a : Agent) : Check Unit := do
  noteIf (!isSnakeOrKebab a.name.val.toList) (.agentNaming a.name.val) a.name.span
  a.model.forM (model k)
  skills k a.skills
  (a.permissions.getD []).forM permission
  unknownProperties .agent a.properties

/-- The import of a skill (`Checker::visit_import`). -/
def importSkill (k : Knowledge) (p : Place) (i : Import) : Check Unit := do
  noteIf (!p.importsOpen) .importNotAtTop i.span
  noteIf (!k.options.resolves i.skill.value) (.unresolvedSkill i.skill.value) i.skill.span

/-- The ways to wait between retries (`BACKOFF_STRATEGIES`). -/
def backoffStrategies : List String := ["none", "linear", "exponential"]

/-- A session (`Checker::visit_session`). -/
def session (k : Knowledge) (s : Session) : Check Unit := do
  noteIf (s.prompt.isNone && s.agent.isNone) .sessionWithoutPrompt s.span
  s.agent.forM fun a ↦ noteIf (!k.definitions.hasAgent a.val) (.undefinedAgent a.val) a.span
  s.model.forM (model k)
  skills k (s.skills.getD [])
  s.retry.forM fun r ↦ noteIf (r.val = 0) .zeroRetry r.span
  s.backoff.forM fun b ↦
    noteIf (!backoffStrategies.contains b.val) (.unknownBackoff b.val backoffStrategies) b.span
  unknownProperties .session s.properties
  s.prompt.forM string
  context s.context

/-- The strategy of a parallel block; none if it is not known (`JoinStrategy::parse`). -/
def joinOf (p : Parallel) : Option JoinStrategy :=
  match p.join with
  | some join => JoinStrategy.ofText? join.val
  | none => some .all

/-- The modifiers of a parallel block (`Checker::check_parallel_modifiers`). -/
def parallelModifiers (p : Parallel) : Check Unit := do
  let join := joinOf p
  p.join.forM fun j ↦ noteIf join.isNone
    (.unknownJoin j.val ([.all, .first, .any, .regardless].map JoinStrategy.text)) j.span
  p.onFail.forM fun f ↦ noteIf (FailurePolicy.ofText? f.val).isNone
    (.unknownFailurePolicy f.val ([.failFast, .continue_, .ignore].map FailurePolicy.text)) f.span
  p.count.forM fun n ↦ do
    noteIf (join.any (· ≠ .any)) .countWithoutAny n.span
    noteIf (n.val = 0) .zeroCount n.span
  p.onFail.forM fun f ↦
    noteIf (join = some .regardless && FailurePolicy.ofText? f.val = some .failFast)
      .conflictingFailurePolicy f.span

/-- The header of a parallel block (`Checker::visit_parallel`). -/
def parallel (p : Parallel) : Check Unit := do
  parallelModifiers p
  noteIf (!p.body.any Statement.isExecutable) .emptyParallel p.span

/-- The invocation of a block, after its arguments (`Checker::visit_invocation`). -/
def invocation (k : Knowledge) (i : Invocation) : Check Unit :=
  match k.definitions.arity? i.name.val with
  | none => note (.undefinedBlock i.name.val) i.name.span
  | some arity =>
    noteIf (arity ≠ i.args.length) (.wrongArity i.name.val arity i.args.length) i.span

/-- An assignment, after its value (`Checker::visit_reassignment`). A branch may introduce the name
that it assigns. -/
def assignment (p : Place) (name : Ident) (span : Span) : Check Unit := do
  match (← get).scopes.lookup? name.val with
  | none =>
    if p.isBranch then declare name .branch true
    else note (.undeclaredAssignment name.val) span
  | some x =>
    match x.kind with
    | .constant => note (.constAssignment name.val x.span) span
    | .session => note (.sessionAssignment name.val x.span) span
    | _ => pure ()

/-- The kind of symbol that a declaration introduces. -/
def bindingSymbol : BindingKind → SymbolKind
  | .variable => .variable
  | .constant => .constant

/-! ## The result of the statement before -/

/-- The parts looked into for sessions: what a session holds is its own (`ImplicitContext`). -/
def outsideSessions : Visit → Bool
  | .action (.session _) => false
  | _ => true

/-- Whether a part is a session without a written context (`ImplicitContext::visit_session`). -/
def isOpenSession : Visit → Bool
  | .action (.session s) => s.context.isImplicit
  | _ => false

/-- Whether a session in a statement sees the result of the statement before
(`consumes_predecessor`). -/
def seesPredecessor (s : Statement) : Bool := (s.visits outsideSessions).any isOpenSession

/-- The names under which the result of a statement is known (`produced_names`). -/
def resultNames : Statement → List String
  | .parallel p => p.branchNames.map Located.val
  | s => (s.boundName?.map Located.val).toList

/-! ## The pass -/

mutual

/-- Checks a statement (`Checker::visit_statement`). -/
def statement (k : Knowledge) (p : Place) : Statement → Check Unit
  | .comment _ => pure ()
  | .importSkill i => importSkill k p i
  | .agent a => agent k a
  | .block ⟨_, params, body, _⟩ =>
    inScope k (params.map fun name ↦ { name, kind := .parameter }) (statements k p.inBody [] body)
  | .binding kind ⟨name, value, _⟩ => do
    expr k p value
    declare name (bindingSymbol kind) true
  | .assignment ⟨name, value, span⟩ => do
    expr k p value
    assignment p name span
  | .action a => do
    action k p a
    match a with
    | .session s => s.name.forM fun name ↦ declare name .session true
    | _ => pure ()
  | .parallel ⟨join, onFail, count, keys, body, span⟩ => do
    parallel ⟨join, onFail, count, keys, body, span⟩
    statements k p.branches [] body
  | .repeated ⟨count, index, body, _⟩ => do
    noteIf (count.val = 0) .zeroRepeat count.span
    inScope k (index.map fun b ↦ .ofIdent b.name).toList (statements k p.inBody [] body)
  | .forEach ⟨item, index, collection, _, _, _, body, _⟩ => do
    expr k p collection
    inScope k (.ofIdent item :: (index.map Local.ofIdent).toList) (statements k p.inBody [] body)
  | .loop ⟨condition, maxIterations, index, _, body, span⟩ => do
    noteIf (condition.isNone && maxIterations.isNone) .unboundedLoop span
    inScope k (index.map fun b ↦ .ofIdent b.name).toList (statements k p.inBody [] body)
  | .attempt ⟨body, handler, cleanup, _⟩ => do
    inScope k [] (statements k p.inBody [] body)
    handlerBody k p handler
    clauseBody k p cleanup
  | .throw t =>
    match t.message with
    | some message => string message
    | none => noteIf (!p.inHandler) .throwOutsideCatch t.span
  | .choice ⟨_, options, _⟩ => optionBodies k p options
  | .conditional ⟨branches, otherwise, _⟩ => do
    branchBodies k p branches
    clauseBody k p otherwise

/-- Checks statements in order; `before` are the names of the result of the statement before
(`Checker::visit_body`). -/
def statements (k : Knowledge) (p : Place) (before : List String) : List Statement → Check Unit
  | [] => if p.nested then before.forM markUsed else pure ()
  | s :: rest => do
    if s.isExecutable && seesPredecessor s then before.forM markUsed
    statement k p s
    statements k (p.past s) (if s.isExecutable then resultNames s else before) rest

/-- Checks a handler (`Checker::visit_try`). -/
def handlerBody (k : Knowledge) (p : Place) : Option Handler → Check Unit
  | none => pure ()
  | some ⟨error, body, _⟩ =>
    inScope k (error.map fun b ↦ .ofIdent b.name).toList (statements k p.handling [] body)

/-- Checks a clause that has a body only. -/
def clauseBody (k : Knowledge) (p : Place) : Option Body → Check Unit
  | none => pure ()
  | some ⟨body, _⟩ => inScope k [] (statements k p.inBody [] body)

/-- Checks the options of a choice (`Checker::visit_choice`). -/
def optionBodies (k : Knowledge) (p : Place) : List ChoiceOption → Check Unit
  | [] => pure ()
  | ⟨label, body, _⟩ :: options => do
    string label
    inScope k [] (statements k p.inBody [] body)
    optionBodies k p options

/-- Checks conditional branches (`Checker::visit_if`). -/
def branchBodies (k : Knowledge) (p : Place) : List Branch → Check Unit
  | [] => pure ()
  | ⟨_, _, body, _⟩ :: branches => do
    inScope k [] (statements k p.inBody [] body)
    branchBodies k p branches

/-- Checks an action. -/
def action (k : Knowledge) (p : Place) : Action → Check Unit
  | .session s => session k s
  | .pipe ⟨input, operations, _⟩ => do
    expr k p input
    operationBodies k p operations
  | .doBlock ⟨body, _⟩ => inScope k [] (statements k p.inBody [] body)
  | .invoke ⟨name, args, span⟩ => do
    exprs k p args
    invocation k ⟨name, args, span⟩

/-- Checks pipe operations (`Checker::visit_pipe`). -/
def operationBodies (k : Knowledge) (p : Place) : List Operation → Check Unit
  | [] => pure ()
  | ⟨operator, item, accumulator, body, span⟩ :: operations => do
    inScope k (operationLocals ⟨operator, item, accumulator, body, span⟩)
      (statements k p.inBody [] body)
    operationBodies k p operations

/-- Checks a value (`walk_expr`). -/
def expr (k : Knowledge) (p : Place) : Expr → Check Unit
  | .action a => action k p a
  | .string s => string s
  | .number _ | .discretion _ => pure ()
  | .ident name => useName .value name
  | .array ⟨items, _⟩ => exprs k p items
  | .object ⟨es, _⟩ => entries k p es

/-- Checks values in order. -/
def exprs (k : Knowledge) (p : Place) : List Expr → Check Unit
  | [] => pure ()
  | e :: es => do
    expr k p e
    exprs k p es

/-- Checks the entries of an object in order. -/
def entries (k : Knowledge) (p : Place) : List Entry → Check Unit
  | [] => pure ()
  | ⟨_, some value⟩ :: es => do
    expr k p value
    entries k p es
  | ⟨key, none⟩ :: es => do
    useName .value key
    entries k p es

end

end Check

end ProseLang
