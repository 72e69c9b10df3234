import ProseLang.Proofs.Validation.Scoping

/-!
# Valid programs

What it takes for a program to be valid is said here construct by construct, over what names mean
at each place (`Statement.Valid`), without the check and its scopes. A program is accepted just if
it is valid in this sense (`validate_isValid_iff`), so that what is to be shown of accepted programs
can be shown along the tree.
-/

namespace ProseLang

namespace Env

/-- Whether a name means something. -/
def Binds (Γ : Env) (name : Ident) : Prop := (Γ.resolve name.val).isSome

/-- Whether the innermost scope does not have a name yet. -/
def Lacks (Γ : Env) (name : Ident) : Prop := Γ.headD emptyScope name.val = none

/-- Whether a name can be assigned: by a branch, if it means nothing yet, and by anyone, if what it
means is not read-only. -/
structure Assigns (Γ : Env) (isBranch : Bool) (name : Ident) : Prop where
  bound : isBranch = false → Γ.Binds name
  writable : ∀ d, Γ.resolve name.val = some d → d.kind.isReadOnly = false

end Env

/-- Whether names are different from each other. -/
def Distinct (names : List Ident) : Prop := (names.map Located.val).Nodup

/-- Whether the names in a string mean something. -/
def StringLit.Valid (Γ : Env) (s : StringLit) : Prop := ∀ name ∈ s.interpolations, Γ.Binds name

/-- Whether a permission is a known one with a value of its kind. -/
structure PropertyOf.IsPermission (p : Property) : Prop where
  key : Check.permissionKinds.contains p.key.val
  value : Check.isPermission p.value

/-- Whether the settings of an agent exist. -/
structure AgentOf.Valid (k : Knowledge) (a : Agent) : Prop where
  model : ∀ m, a.model = some m → k.options.isKnownModel m.val
  skills : ∀ s ∈ a.skills, k.definitions.hasSkill s.val
  permissions : ∀ p ∈ a.permissions.getD [], p.IsPermission
  properties : a.properties = []

/-- Whether the settings of a session exist and the names in it mean something. -/
structure SessionOf.Valid (k : Knowledge) (Γ : Env) (s : Session) : Prop where
  task : s.prompt = none → s.agent.isSome
  agent : ∀ a, s.agent = some a → k.definitions.hasAgent a.val
  model : ∀ m, s.model = some m → k.options.isKnownModel m.val
  skills : ∀ x ∈ s.skills.getD [], k.definitions.hasSkill x.val
  retry : ∀ r, s.retry = some r → r.val ≠ 0
  backoff : ∀ b, s.backoff = some b → Check.backoffStrategies.contains b.val
  properties : s.properties = []
  prompt : ∀ x, s.prompt = some x → x.Valid Γ
  context : ∀ name ∈ s.context.names, Γ.Binds name

/-- Whether the header of a parallel block makes sense and there is something to run. -/
structure ParallelOf.Valid (p : Parallel) : Prop where
  join : ∀ j, p.join = some j → (Check.joinOf p).isSome
  onFail : ∀ f, p.onFail = some f → (FailurePolicy.ofText? f.val).isSome
  count : ∀ n, p.count = some n → (Check.joinOf p).any (· ≠ .any) = false ∧ n.val ≠ 0
  policy : ∀ f, p.onFail = some f → Check.joinOf p = some .regardless →
    FailurePolicy.ofText? f.val ≠ some .failFast
  body : p.body.any Statement.isExecutable

/-- The name that the result of an action gets as a statement. -/
def Action.resultName? : Action → Option Ident
  | .session s => s.name
  | _ => none

mutual

/-- Whether a statement is valid where names mean `Γ`. -/
def Statement.Valid (k : Knowledge) (p : Place) (Γ : Env) : Statement → Prop
  | .comment _ => True
  | .importSkill i => p.importsOpen ∧ k.options.resolves i.skill.value
  | .agent a => a.Valid k
  | .block ⟨_, params, body, _⟩ =>
    Distinct params ∧ BodyValid k p.inBody (Γ.enter .parameter params) body
  | .binding _ ⟨name, value, _⟩ => value.Valid k p Γ ∧ Γ.Lacks name
  | .assignment ⟨name, value, _⟩ => value.Valid k p Γ ∧ Γ.Assigns p.isBranch name
  | .action a => a.Valid k p Γ ∧ ∀ name, a.resultName? = some name → Γ.Lacks name
  | .parallel ⟨join, onFail, count, keys, body, span⟩ =>
    ParallelOf.Valid ⟨join, onFail, count, keys, body, span⟩ ∧ BodyValid k p.branches Γ body
  | .repeated ⟨_, index, body, _⟩ =>
    BodyValid k p.inBody (Γ.enter .bodyLocal (index.map AsBinding.name).toList) body
  | .forEach ⟨item, index, collection, _, _, _, body, _⟩ =>
    collection.Valid k p Γ ∧ Distinct (item :: index.toList)
      ∧ BodyValid k p.inBody (Γ.enter .bodyLocal (item :: index.toList)) body
  | .loop ⟨_, _, index, _, body, _⟩ =>
    BodyValid k p.inBody (Γ.enter .bodyLocal (index.map AsBinding.name).toList) body
  | .attempt ⟨body, handler, cleanup, _⟩ =>
    BodyValid k p.inBody (Γ.enter .bodyLocal []) body ∧ HandlerValid k p Γ handler
      ∧ ClauseValid k p Γ cleanup
  | .throw t => (∀ m, t.message = some m → m.Valid Γ) ∧ (t.message = none → p.inHandler)
  | .choice ⟨_, options, _⟩ => OptionsValid k p Γ options
  | .conditional ⟨branches, otherwise, _⟩ =>
    BranchesValid k p Γ branches ∧ ClauseValid k p Γ otherwise

/-- Whether statements are valid, each where names mean what the ones before it say. -/
def BodyValid (k : Knowledge) (p : Place) (Γ : Env) : List Statement → Prop
  | [] => True
  | s :: body => s.Valid k p Γ ∧ BodyValid k (p.past s) (s.envAfter p.isBranch Γ) body

/-- Whether a handler is valid. -/
def HandlerValid (k : Knowledge) (p : Place) (Γ : Env) : Option Handler → Prop
  | none => True
  | some ⟨error, body, _⟩ =>
    BodyValid k p.handling (Γ.enter .bodyLocal (error.map AsBinding.name).toList) body

/-- Whether a clause that has a body only is valid. -/
def ClauseValid (k : Knowledge) (p : Place) (Γ : Env) : Option Body → Prop
  | none => True
  | some ⟨body, _⟩ => BodyValid k p.inBody (Γ.enter .bodyLocal []) body

/-- Whether the options of a choice are valid. -/
def OptionsValid (k : Knowledge) (p : Place) (Γ : Env) : List ChoiceOption → Prop
  | [] => True
  | ⟨label, body, _⟩ :: options =>
    label.Valid Γ ∧ BodyValid k p.inBody (Γ.enter .bodyLocal []) body ∧ OptionsValid k p Γ options

/-- Whether conditional branches are valid. -/
def BranchesValid (k : Knowledge) (p : Place) (Γ : Env) : List Branch → Prop
  | [] => True
  | ⟨_, _, body, _⟩ :: branches =>
    BodyValid k p.inBody (Γ.enter .bodyLocal []) body ∧ BranchesValid k p Γ branches

/-- Whether an action is valid. -/
def Action.Valid (k : Knowledge) (p : Place) (Γ : Env) : Action → Prop
  | .session s => SessionOf.Valid k Γ s
  | .pipe ⟨input, operations, _⟩ => input.Valid k p Γ ∧ OperationsValid k p Γ operations
  | .doBlock ⟨body, _⟩ => BodyValid k p.inBody (Γ.enter .bodyLocal []) body
  | .invoke ⟨name, args, _⟩ =>
    ValuesValid k p Γ args ∧ k.definitions.arity? name.val = some args.length

/-- Whether pipe operations are valid. -/
def OperationsValid (k : Knowledge) (p : Place) (Γ : Env) : List Operation → Prop
  | [] => True
  | ⟨operator, item, accumulator, body, span⟩ :: operations =>
    Distinct (OperationOf.names ⟨operator, item, accumulator, body, span⟩)
      ∧ BodyValid k p.inBody
        (Γ.enter .bodyLocal (OperationOf.names ⟨operator, item, accumulator, body, span⟩)) body
      ∧ OperationsValid k p Γ operations

/-- Whether a value is valid. -/
def Expr.Valid (k : Knowledge) (p : Place) (Γ : Env) : Expr → Prop
  | .action a => a.Valid k p Γ
  | .string s => s.Valid Γ
  | .number _ | .discretion _ => True
  | .ident name => Γ.Binds name
  | .array ⟨items, _⟩ => ValuesValid k p Γ items
  | .object ⟨entries, _⟩ => EntriesValid k p Γ entries

/-- Whether values are valid. -/
def ValuesValid (k : Knowledge) (p : Place) (Γ : Env) : List Expr → Prop
  | [] => True
  | e :: es => e.Valid k p Γ ∧ ValuesValid k p Γ es

/-- Whether the entries of an object are valid. -/
def EntriesValid (k : Knowledge) (p : Place) (Γ : Env) : List Entry → Prop
  | [] => True
  | ⟨_, some value⟩ :: entries => value.Valid k p Γ ∧ EntriesValid k p Γ entries
  | ⟨key, none⟩ :: entries => Γ.Binds key ∧ EntriesValid k p Γ entries

end

/-- Whether a program is valid: no agent and no block is defined twice, and its statements are. -/
structure Program.Valid (options : ValidatorOptions) (p : Program) : Prop where
  agents : Distinct (Definitions.ofProgram p).agents
  blocks : Distinct ((Definitions.ofProgram p).blocks.map Prod.fst)
  statements : BodyValid { options, definitions := .ofProgram p } {} [Env.emptyScope] p.statements

private theorem Env.lacks_bind {Γ : Env} {name other : Ident} {kind : SymbolKind} :
    (Γ.bind name kind).Lacks other ↔ Γ.Lacks other ∧ name.val ≠ other.val := by
  simp [Lacks, bind, extend]

/-- What means nothing is not in the innermost scope. -/
theorem Env.lacks_of_resolve {Γ : Env} {name : Ident} (h : Γ.resolve name.val = none) :
    Γ.Lacks name := by
  cases Γ with
  | nil => rfl
  | cons scope Γ => exact List.findSome?_eq_none_iff.1 h scope List.mem_cons_self

/-- A declaration is a duplicate just if the innermost scope has the name already. -/
theorem Scopes.Means.declared {ss : Scopes} {Γ : Env} (h : ss.Means Γ) (x : Symbol) :
    (∀ first, (ss.declare x).2 ≠ .duplicate first) ↔ Γ.headD Env.emptyScope x.name = none := by
  cases h with
  | nil => simp [Scopes.declare, Env.emptyScope]
  | @cons s ss scope Γ head tail =>
    rw [List.headD_cons, ← head x.name, Option.map_eq_none_iff]
    cases found : s.find? x.name with
    | some first => simp [Scopes.declare_duplicate found]
    | none =>
      apply iff_of_true _ rfl
      intro first
      rw [Scopes.declare, found]
      cases Scopes.lookup? ss x.name with
      | none => exact Declared.noConfusion
      | some hidden => exact Declared.noConfusion

/-! ## Errors -/

/-- Whether there is no error among findings. -/
def Clean (fs : List Finding) : Prop := ∀ f ∈ fs, f.isError = false

private theorem clean_append {a b : List Finding} : Clean (a ++ b) ↔ Clean a ∧ Clean b :=
  List.forall_mem_append

private theorem clean_singleton {f : Finding} : Clean [f] ↔ f.isError = false :=
  List.forall_mem_singleton

private theorem clean_unused (k : Knowledge) (s : Scope) : Clean (Check.unusedFindings k s) := by
  intro f member
  rw [Check.unusedFindings] at member
  split at member
  · obtain ⟨x, -, rfl⟩ := List.mem_map.1 member
    rfl
  · cases member

/-- The names that an operation declares. -/
theorem Check.map_name_operationLocals (o : Operation) :
    (operationLocals o).map Local.name = o.names := by
  rcases o with ⟨operator, item, accumulator, body, span⟩
  rw [operationLocals, OperationOf.names]
  split <;> cases item <;> cases accumulator <;> rfl

namespace Check

/-- Whether a check, where names mean `Γ`, makes an error just if `P` fails, and names mean `Γ'`
after it. -/
def Accepts (c : Check Unit) (Γ Γ' : Env) (P : Prop) : Prop :=
  ∀ s : CheckState, s.scopes.Means Γ → (c.run s).2.scopes.Means Γ'
    ∧ (Clean (c.run s).2.findings ↔ Clean s.findings ∧ P)

namespace Accepts

variable {Γ Γ' Δ : Env} {c d : Check Unit} {P Q : Prop}

private theorem congr (h : Accepts c Γ Γ' P) (same : P ↔ Q) : Accepts c Γ Γ' Q := by
  rwa [propext same] at h

private theorem pure (Γ : Env) : Accepts (pure ()) Γ Γ True := by
  intro s means
  exact ⟨means, (and_iff_left trivial).symm⟩

/-- One check after another. -/
theorem seq (hc : Accepts c Γ Γ' P) (hd : Accepts d Γ' Δ Q) :
    Accepts (do c; d) Γ Δ (P ∧ Q) := by
  intro s h
  obtain ⟨means, clean⟩ := hc s h
  obtain ⟨means', clean'⟩ := hd (c.run s).2 means
  apply And.intro means'
  rw [← and_assoc, ← clean]
  exact clean'

/-- A check that never makes an error before another. -/
theorem calm (hc : Accepts c Γ Γ' True) (hd : Accepts d Γ' Δ Q) : Accepts (do c; d) Γ Δ Q :=
  (hc.seq hd).congr (and_iff_right trivial)

/-- What is found is an error just if its issue is one. -/
theorem note {issue : Issue} {span : Span} :
    Accepts (Check.note issue span) Γ Γ (Finding.isError ⟨issue, span⟩ = false) := by
  intro s means
  exact ⟨means, clean_append.trans (and_congr_right fun _ ↦ clean_singleton)⟩

private theorem warning {issue : Issue} {span : Span} (h : Finding.isError ⟨issue, span⟩ = false) :
    Accepts (Check.note issue span) Γ Γ True := note.congr (iff_true_intro h)

private theorem error {issue : Issue} {span : Span} (h : Finding.isError ⟨issue, span⟩ = true) :
    Accepts (Check.note issue span) Γ Γ False := note.congr (by simp [h])

private theorem noteIf {condition : Bool} {issue : Issue} {span : Span}
    (h : Finding.isError ⟨issue, span⟩ = true) :
    Accepts (Check.noteIf condition issue span) Γ Γ (condition = false) := by
  cases condition with
  | true => exact (error h).congr (by simp)
  | false => exact (pure Γ).congr (by simp)

private theorem warnIf {condition : Bool} {issue : Issue} {span : Span}
    (h : Finding.isError ⟨issue, span⟩ = false) :
    Accepts (Check.noteIf condition issue span) Γ Γ True := by
  cases condition with
  | true => exact warning h
  | false => exact pure Γ

private theorem markUsed (name : String) : Accepts (Check.markUsed name) Γ Γ True := by
  intro s means
  exact ⟨means.markUsed name, (and_iff_left trivial).symm⟩

private theorem forM {α : Type} {f : α → Check Unit} {xs : List α} {P : α → Prop}
    (h : ∀ x, Accepts (f x) Γ Γ (P x)) : Accepts (xs.forM f) Γ Γ (∀ x ∈ xs, P x) := by
  induction xs with
  | nil => exact (pure Γ).congr (by simp)
  | cons x xs ih => exact ((h x).seq ih).congr List.forall_mem_cons.symm

private theorem forM_calm {α : Type} {f : α → Check Unit} {xs : List α}
    (h : ∀ x, Accepts (f x) Γ Γ True) : Accepts (xs.forM f) Γ Γ True :=
  (forM h).congr (by simp)

private theorem optionForM {α : Type} {f : α → Check Unit} {x : Option α} {P : α → Prop}
    (h : ∀ x, Accepts (f x) Γ Γ (P x)) : Accepts (x.forM f) Γ Γ (∀ y, x = some y → P y) := by
  cases x with
  | none => exact (pure Γ).congr (by simp)
  | some x => exact (h x).congr (by simp)

/-- The use of a name is accepted just if the name means something. -/
theorem useName (how : NameUse) (name : Ident) :
    Accepts (Check.useName how name) Γ Γ (Γ.Binds name) := by
  have report (bound : Bool) : bound = (Γ.resolve name.val).isSome →
      Accepts (if bound then Check.markUsed name.val
        else Check.note (.undefinedVariable name.val how) name.span) Γ Γ (Γ.Binds name) := by
    intro meaning
    cases bound with
    | true => exact (markUsed name.val).congr (by simp [Env.Binds, ← meaning])
    | false => exact (error rfl).congr (by simp [Env.Binds, ← meaning])
  intro s means
  exact report (s.scopes.binds name.val) (means.binds name.val) s means

/-- A declaration is accepted just if its scope does not have the name yet. To hide a name is no
error. -/
theorem declare (name : Ident) (kind : SymbolKind) (written : Bool) :
    Accepts (Check.declare name kind written) Γ (Γ.bind name kind) (Γ.Lacks name) := by
  intro s means
  apply And.intro (Finds.declare name kind written s means).1
  have fresh := means.declared { name := name.val, kind, span := name.span }
  rw [Env.Lacks, ← fresh, Check.declare]
  simp only [StateT.run_bind, StateT.run_get, StateT.run_set, pure_bind]
  cases met : s.scopes.declare { name := name.val, kind, span := name.span } with
  | mk scopes declared =>
    have after : Scopes.Means scopes (Γ.bind name kind) := by
      have after := means.declare name kind
      rwa [met] at after
    cases declared with
    | fresh => exact (pure _ { s with scopes } after).2.trans (by simp)
    | duplicate first =>
      have wrong : Accepts (Check.note (if kind = .parameter then .duplicateParameter name.val first
          else .duplicateBinding name.val first) name.span) (Γ.bind name kind) (Γ.bind name kind)
          False := by
        apply error
        split <;> rfl
      exact (wrong { s with scopes } after).2.trans (by simp)
    | shadows outer =>
      have fine : Accepts (Check.noteIf written (.shadowedBinding name.val outer) name.span)
          (Γ.bind name kind) (Γ.bind name kind) True := warnIf rfl
      exact (fine { s with scopes } after).2.trans (by simp)

/-- The names of a construct are accepted just if they are different from each other and from what
the scope has. -/
theorem declareLocals (ls : List Local) :
    Accepts (Check.declareLocals ls) Γ (ls.foldl (fun Δ l ↦ Env.bind Δ l.name l.kind) Γ)
      (Distinct (ls.map Local.name) ∧ ∀ l ∈ ls, Γ.Lacks l.name) := by
  induction ls generalizing Γ with
  | nil => exact (pure Γ).congr (by simp [Distinct])
  | cons l ls ih =>
    apply ((declare l.name l.kind l.written).seq ih).congr
    simp only [Distinct, List.map_cons, List.nodup_cons, List.forall_mem_cons, List.mem_map,
      Env.lacks_bind]
    constructor
    · rintro ⟨fresh, distinct, rest⟩
      refine ⟨⟨?_, distinct⟩, fresh, fun other member ↦ (rest other member).1⟩
      rintro ⟨_, ⟨other, member, rfl⟩, same⟩
      exact (rest other member).2 same.symm
    · rintro ⟨⟨apart, distinct⟩, fresh, rest⟩
      refine ⟨fresh, distinct, fun other member ↦ ⟨rest other member, fun same ↦ ?_⟩⟩
      exact apart ⟨_, ⟨other, member, rfl⟩, same.symm⟩

/-- A construct with a scope of its own is accepted just if its names are different from each other
and its body is accepted. -/
theorem inScope (k : Knowledge) {ls : List Local} {kind : SymbolKind} {names : List Ident}
    (locals : ls.foldl (fun Δ l ↦ Env.bind Δ l.name l.kind) (Env.emptyScope :: Γ)
      = Γ.enter kind names) (same : ls.map Local.name = names)
    (body : Accepts c (Γ.enter kind names) Δ P) (left : Δ.tail = Γ) :
    Accepts (Check.inScope k ls c) Γ Γ (Distinct names ∧ P) := by
  intro s means
  have declared : Accepts (Check.declareLocals ls) (Env.emptyScope :: Γ) (Γ.enter kind names)
      (Distinct names) := by
    rw [← locals, ← same]
    exact (declareLocals ls).congr (and_iff_left fun _ _ ↦ rfl)
  obtain ⟨means', clean⟩ := (declared.seq body) (Check.openScope.run s).2 means.openScope
  have after := means'.tail
  rw [left] at after
  apply And.intro after
  change Clean (_ ++ unusedFindings k _) ↔ _
  rw [clean_append, and_iff_left (clean_unused k _)]
  exact clean

/-! ### Leaves -/

private theorem string (s : StringLit) : Accepts (Check.string s) Γ Γ (s.Valid Γ) :=
  forM (useName .interpolation)

private theorem context (x : Context) :
    Accepts (Check.context x) Γ Γ (∀ name ∈ x.names, Γ.Binds name) :=
  forM (useName .context)

private theorem model (k : Knowledge) (m : Ident) :
    Accepts (Check.model k m) Γ Γ (k.options.isKnownModel m.val) :=
  (noteIf rfl).congr (by simp)

private theorem skills (k : Knowledge) (names : List Ident) :
    Accepts (Check.skills k names) Γ Γ (∀ s ∈ names, k.definitions.hasSkill s.val) :=
  forM fun _ ↦ (noteIf rfl).congr (by simp)

private theorem unknownProperties (owner : PropertyOwner) (properties : List Property) :
    Accepts (Check.unknownProperties owner properties) Γ Γ (properties = []) :=
  (forM fun _ ↦ error rfl).congr (by simp [List.eq_nil_iff_forall_not_mem])

private theorem permission (p : Property) : Accepts (Check.permission p) Γ Γ p.IsPermission := by
  rw [Check.permission]
  split
  · next known =>
    apply (noteIf rfl).congr
    exact ⟨fun h ↦ ⟨known, by simpa using h⟩, fun h ↦ by simpa using h.value⟩
  · next unknown => exact (error rfl).congr (iff_of_false id fun h ↦ unknown h.key)

private theorem agent (k : Knowledge) (a : Agent) : Accepts (Check.agent k a) Γ Γ (a.Valid k) := by
  apply Accepts.congr
  · apply calm (warnIf rfl)
    apply (optionForM (model k)).seq
    apply (skills k a.skills).seq
    exact (forM permission).seq (unknownProperties .agent a.properties)
  · exact ⟨fun ⟨model, skills, permissions, properties⟩ ↦ ⟨model, skills, permissions, properties⟩,
      fun h ↦ ⟨h.model, h.skills, h.permissions, h.properties⟩⟩

private theorem importSkill (k : Knowledge) (p : Place) (i : Import) :
    Accepts (Check.importSkill k p i) Γ Γ (p.importsOpen ∧ k.options.resolves i.skill.value) :=
  ((noteIf rfl).seq (noteIf rfl)).congr (by simp)

private theorem session (k : Knowledge) (s : Session) :
    Accepts (Check.session k s) Γ Γ (SessionOf.Valid k Γ s) := by
  apply Accepts.congr
  · apply (noteIf rfl).seq
    apply (optionForM fun _ ↦ noteIf rfl).seq
    apply (optionForM (model k)).seq
    apply (skills k _).seq
    apply (optionForM fun _ ↦ noteIf rfl).seq
    apply (optionForM fun _ ↦ noteIf rfl).seq
    apply (unknownProperties .session s.properties).seq
    exact (optionForM string).seq (context s.context)
  · constructor
    · rintro ⟨task, agent, model, skills, retry, backoff, properties, prompt, context⟩
      refine ⟨?_, ?_, model, skills, ?_, ?_, properties, prompt, context⟩
      · simpa using task
      · simpa using agent
      · simpa using retry
      · simpa using backoff
    · intro h
      refine ⟨?_, ?_, h.model, h.skills, ?_, ?_, h.properties, h.prompt, h.context⟩
      · simpa using h.task
      · simpa using h.agent
      · simpa using h.retry
      · simpa using h.backoff

private theorem parallel (p : Parallel) : Accepts (Check.parallel p) Γ Γ p.Valid := by
  apply Accepts.congr
  · apply Accepts.seq
    · apply (optionForM fun _ ↦ noteIf rfl).seq
      apply (optionForM fun _ ↦ noteIf rfl).seq
      apply (optionForM fun _ ↦ (noteIf rfl).seq (noteIf rfl)).seq
      exact optionForM fun _ ↦ noteIf rfl
    · exact noteIf rfl
  · constructor
    · rintro ⟨⟨join, onFail, count, policy⟩, body⟩
      refine ⟨?_, ?_, ?_, ?_, ?_⟩
      · simpa using join
      · simpa using onFail
      · simpa using count
      · simpa using policy
      · simpa using body
    · intro h
      refine ⟨⟨?_, ?_, ?_, ?_⟩, ?_⟩
      · simpa using h.join
      · simpa using h.onFail
      · simpa using h.count
      · simpa using h.policy
      · simpa using h.body

private theorem invocation (k : Knowledge) (i : Invocation) :
    Accepts (Check.invocation k i) Γ Γ (k.definitions.arity? i.name.val = some i.args.length) := by
  rw [Check.invocation]
  split
  · next undefined => exact (error rfl).congr (by simp [undefined])
  · next arity defined => exact (noteIf rfl).congr (by simp [defined])

/-- An assignment is accepted just if its target may be assigned. -/
theorem assignment (p : Place) (name : Ident) (span : Span) :
    Accepts (Check.assignment p name span) Γ
      (if p.isBranch && (Γ.resolve name.val).isNone then Γ.bind name .branch else Γ)
      (Γ.Assigns p.isBranch name) := by
  intro s means
  apply And.intro (Finds.assignment p name span s means).1
  have meaning := means.lookup? name.val
  rw [Check.assignment]
  simp only [StateT.run_bind, StateT.run_get, pure_bind]
  cases target : s.scopes.lookup? name.val with
  | none =>
    rw [target, Option.map_none] at meaning
    cases p.isBranch with
    | true =>
      have allowed : Γ.Assigns true name := ⟨Bool.noConfusion, by simp [← meaning]⟩
      have fresh := Env.lacks_of_resolve meaning.symm
      exact ((declare name .branch true).congr (iff_of_true fresh allowed) s means).2
    | false =>
      have refused : ¬ Γ.Assigns false name := fun h ↦ by simpa [Env.Binds, ← meaning] using h.bound
      exact ((error rfl).congr (iff_of_false id refused) s means).2
  | some x =>
    rw [target, Option.map_some] at meaning
    rcases x with ⟨_, kind, declared, _⟩
    have writable : Γ.Assigns p.isBranch name ↔ kind.isReadOnly = false := by
      constructor
      · exact fun h ↦ h.writable _ meaning.symm
      · intro h
        exact ⟨fun _ ↦ by simp [Env.Binds, ← meaning],
          by simpa [← meaning, Symbol.declaration] using h⟩
    rw [writable]
    cases kind
    case constant | session => exact ((error rfl).congr (by simp [SymbolKind.isReadOnly]) s means).2
    all_goals exact ((pure Γ).congr (by simp [SymbolKind.isReadOnly]) s means).2

/-- A body with a scope of its own. -/
theorem body (k : Knowledge) {ls : List Local} {kind : SymbolKind} {names : List Ident}
    {inner : List Statement}
    (locals : ls.foldl (fun Δ l ↦ Env.bind Δ l.name l.kind) (Env.emptyScope :: Γ)
      = Γ.enter kind names) (same : ls.map Local.name = names)
    (h : Accepts c (Γ.enter kind names) (bodyEnvAfter false (Γ.enter kind names) inner) P) :
    Accepts (Check.inScope k ls c) Γ Γ (Distinct names ∧ P) := by
  apply inScope k locals same h
  rw [tail_bodyEnvAfter, Env.tail_enter]

/-- A body with a scope of its own that starts without names. -/
theorem plainBody (k : Knowledge) {inner : List Statement}
    (h : Accepts c (Γ.enter .bodyLocal []) (bodyEnvAfter false (Γ.enter .bodyLocal []) inner) P) :
    Accepts (Check.inScope k [] c) Γ Γ P :=
  (body k rfl rfl h).congr (and_iff_right .nil)

/-- A body with a scope of its own that starts with one name at most. -/
theorem indexBody (k : Knowledge) {inner : List Statement} (index : Option AsBinding)
    (h : Accepts c (Γ.enter .bodyLocal (index.map AsBinding.name).toList)
      (bodyEnvAfter false (Γ.enter .bodyLocal (index.map AsBinding.name).toList) inner) P) :
    Accepts (Check.inScope k (index.map fun b ↦ .ofIdent b.name).toList c) Γ Γ P := by
  cases index with
  | none => exact plainBody k h
  | some b => exact (body k rfl rfl h).congr (and_iff_right (by simp [Distinct]))

end Accepts

mutual

/-- A statement is accepted just if it is valid. -/
theorem statement_accepts (k : Knowledge) (p : Place) (Γ : Env) :
    (s : Statement) →
      Accepts (statement k p s) Γ (s.envAfter p.isBranch Γ) (s.Valid k p Γ)
  | .comment _ => .pure Γ
  | .importSkill i => .importSkill k p i
  | .agent a => .agent k a
  | .block ⟨_, params, body, _⟩ => by
    rw [statement, Statement.Valid]
    exact .body k (locals_params Γ params) ((List.map_map ..).trans (List.map_id _))
      (statements_accepts k p.inBody [] _ body)
  | .binding kind ⟨name, value, _⟩ => by
    rw [statement, Statement.envAfter, Statement.Valid]
    apply (expr_accepts k p Γ value).seq
    cases kind
    · exact .declare name .variable true
    · exact .declare name .constant true
  | .assignment ⟨name, value, span⟩ => by
    rw [statement, Statement.envAfter, Statement.Valid]
    exact (expr_accepts k p Γ value).seq (.assignment p name span)
  | .action (.session s) => by
    rw [statement, Statement.envAfter, Statement.Valid, Action.resultName?]
    apply (action_accepts k p Γ (.session s)).seq
    cases s.name with
    | none => exact (Accepts.pure Γ).congr (by simp)
    | some name => exact (Accepts.declare name .session true).congr (by simp)
  | .action (.pipe x) =>
    (action_accepts k p Γ (.pipe x)).seq ((Accepts.pure Γ).congr (by simp [Action.resultName?]))
  | .action (.doBlock b) =>
    (action_accepts k p Γ (.doBlock b)).seq ((Accepts.pure Γ).congr (by simp [Action.resultName?]))
  | .action (.invoke i) =>
    (action_accepts k p Γ (.invoke i)).seq ((Accepts.pure Γ).congr (by simp [Action.resultName?]))
  | .parallel ⟨join, onFail, count, keys, body, span⟩ => by
    rw [statement, Statement.envAfter, Statement.Valid]
    exact (Accepts.parallel _).seq (statements_accepts k p.branches [] Γ body)
  | .repeated ⟨count, index, body, _⟩ => by
    rw [statement, Statement.Valid]
    apply Accepts.calm (.warnIf rfl)
    exact .indexBody k index (statements_accepts k p.inBody [] _ body)
  | .forEach ⟨item, index, collection, _, _, _, body, _⟩ => by
    rw [statement, Statement.Valid]
    apply (expr_accepts k p Γ collection).seq
    exact .body k (locals_forEach Γ item index) (by cases index <;> rfl)
      (statements_accepts k p.inBody [] _ body)
  | .loop ⟨condition, maxIterations, index, _, body, span⟩ => by
    rw [statement, Statement.Valid]
    apply Accepts.calm (.warnIf rfl)
    exact .indexBody k index (statements_accepts k p.inBody [] _ body)
  | .attempt ⟨body, handler, cleanup, _⟩ => by
    rw [statement, Statement.Valid]
    apply Accepts.seq (.plainBody k (statements_accepts k p.inBody [] _ body))
    exact (handlerBody_accepts k p Γ handler).seq (clauseBody_accepts k p Γ cleanup)
  | .throw ⟨some message, _⟩ => (Accepts.string message).congr (by simp [Statement.Valid])
  | .throw ⟨none, _⟩ => (Accepts.noteIf rfl).congr (by simp [Statement.Valid])
  | .choice ⟨_, options, _⟩ => optionBodies_accepts k p Γ options
  | .conditional ⟨branches, otherwise, _⟩ => by
    rw [statement, Statement.Valid]
    exact (branchBodies_accepts k p Γ branches).seq (clauseBody_accepts k p Γ otherwise)

/-- Statements are accepted just if they are valid. -/
theorem statements_accepts (k : Knowledge) (p : Place) (before : List String) (Γ : Env) :
    (body : List Statement) →
      Accepts (statements k p before body) Γ (bodyEnvAfter p.isBranch Γ body)
        (BodyValid k p Γ body)
  | [] => by
    rw [statements]
    split
    · exact .forM_calm .markUsed
    · exact .pure Γ
  | s :: body => by
    rw [statements, bodyEnvAfter, BodyValid]
    have rest (before : List String) := statements_accepts k (p.past s) before
      (s.envAfter p.isBranch Γ) body
    rw [Place.isBranch_past] at rest
    have all (before : List String) := (statement_accepts k p Γ s).seq (rest before)
    split
    · exact .calm (.forM_calm .markUsed) (all _)
    · exact all _

private theorem handlerBody_accepts (k : Knowledge) (p : Place) (Γ : Env) :
    (h : Option Handler) → Accepts (handlerBody k p h) Γ Γ (HandlerValid k p Γ h)
  | none => .pure Γ
  | some ⟨error, body, _⟩ => by
    rw [handlerBody, HandlerValid]
    exact .indexBody k error (statements_accepts k p.handling [] _ body)

private theorem clauseBody_accepts (k : Knowledge) (p : Place) (Γ : Env) :
    (c : Option Body) → Accepts (clauseBody k p c) Γ Γ (ClauseValid k p Γ c)
  | none => .pure Γ
  | some ⟨body, _⟩ => by
    rw [clauseBody, ClauseValid]
    exact .plainBody k (statements_accepts k p.inBody [] _ body)

private theorem optionBodies_accepts (k : Knowledge) (p : Place) (Γ : Env) :
    (options : List ChoiceOption) →
      Accepts (optionBodies k p options) Γ Γ (OptionsValid k p Γ options)
  | [] => .pure Γ
  | ⟨label, body, _⟩ :: options => by
    rw [optionBodies, OptionsValid]
    apply Accepts.seq (.string label)
    apply Accepts.seq (.plainBody k (statements_accepts k p.inBody [] _ body))
    exact optionBodies_accepts k p Γ options

private theorem branchBodies_accepts (k : Knowledge) (p : Place) (Γ : Env) :
    (branches : List Branch) →
      Accepts (branchBodies k p branches) Γ Γ (BranchesValid k p Γ branches)
  | [] => .pure Γ
  | ⟨_, _, body, _⟩ :: branches => by
    rw [branchBodies, BranchesValid]
    apply Accepts.seq (.plainBody k (statements_accepts k p.inBody [] _ body))
    exact branchBodies_accepts k p Γ branches

/-- An action is accepted just if it is valid. -/
theorem action_accepts (k : Knowledge) (p : Place) (Γ : Env) :
    (a : Action) → Accepts (action k p a) Γ Γ (a.Valid k p Γ)
  | .session s => .session k s
  | .pipe ⟨input, operations, _⟩ => by
    rw [action, Action.Valid]
    exact (expr_accepts k p Γ input).seq (operationBodies_accepts k p Γ operations)
  | .doBlock ⟨body, _⟩ => by
    rw [action, Action.Valid]
    exact .plainBody k (statements_accepts k p.inBody [] _ body)
  | .invoke ⟨name, args, span⟩ => by
    rw [action, Action.Valid]
    exact (exprs_accepts k p Γ args).seq (.invocation k ⟨name, args, span⟩)

private theorem operationBodies_accepts (k : Knowledge) (p : Place) (Γ : Env) :
    (operations : List Operation) →
      Accepts (operationBodies k p operations) Γ Γ (OperationsValid k p Γ operations)
  | [] => .pure Γ
  | ⟨operator, item, accumulator, body, span⟩ :: operations => by
    rw [operationBodies, OperationsValid, ← and_assoc]
    apply Accepts.seq
    · exact .body k (locals_operation Γ _) (map_name_operationLocals _)
        (statements_accepts k p.inBody [] _ body)
    · exact operationBodies_accepts k p Γ operations

/-- A value is accepted just if it is valid. -/
theorem expr_accepts (k : Knowledge) (p : Place) (Γ : Env) :
    (e : Expr) → Accepts (expr k p e) Γ Γ (e.Valid k p Γ)
  | .action a => action_accepts k p Γ a
  | .string s => .string s
  | .number _ | .discretion _ => .pure Γ
  | .ident name => .useName .value name
  | .array ⟨items, _⟩ => exprs_accepts k p Γ items
  | .object ⟨es, _⟩ => entries_accepts k p Γ es

private theorem exprs_accepts (k : Knowledge) (p : Place) (Γ : Env) :
    (es : List Expr) → Accepts (exprs k p es) Γ Γ (ValuesValid k p Γ es)
  | [] => .pure Γ
  | e :: es => by
    rw [exprs, ValuesValid]
    exact (expr_accepts k p Γ e).seq (exprs_accepts k p Γ es)

private theorem entries_accepts (k : Knowledge) (p : Place) (Γ : Env) :
    (es : List Entry) → Accepts (entries k p es) Γ Γ (EntriesValid k p Γ es)
  | [] => .pure Γ
  | ⟨_, some value⟩ :: es => by
    rw [entries, EntriesValid]
    exact (expr_accepts k p Γ value).seq (entries_accepts k p Γ es)
  | ⟨key, none⟩ :: es => by
    rw [entries, EntriesValid]
    exact (Accepts.useName .value key).seq (entries_accepts k p Γ es)

end

end Check

/-! ## Validation -/

namespace Definitions

private theorem nodup_of_repetitions {seen names : List Ident} (distinct : Distinct seen)
    (h : repetitions seen names = []) : Distinct (seen ++ names) := by
  induction names generalizing seen with
  | nil => simpa using distinct
  | cons name names ih =>
    rw [repetitions] at h
    cases found : seen.find? (·.val = name.val) with
    | some first => simp [found] at h
    | none =>
      rw [found] at h
      have apart : Distinct (seen ++ [name]) := by
        rw [Distinct, List.map_append, List.nodup_append]
        refine ⟨distinct, by simp, ?_⟩
        intro other member last isLast
        obtain ⟨x, mem, rfl⟩ := List.mem_map.1 member
        obtain rfl : last = name.val := by simpa using isLast
        simpa using List.find?_eq_none.1 found x mem
      have all := ih apart h
      rwa [List.append_assoc] at all

private theorem repetitions_eq_nil_iff (names : List Ident) :
    repetitions [] names = [] ↔ Distinct names :=
  ⟨nodup_of_repetitions .nil, fun h ↦ repetitions_eq_nil h⟩

/-- Only agents and blocks must not be defined twice. -/
theorem clean_findings (d : Definitions) :
    Clean d.findings ↔ Distinct d.agents ∧ Distinct (d.blocks.map Prod.fst) := by
  have errors {f : Ident × Span → Finding} (wrong : ∀ r, (f r).isError = true)
      (names : List Ident) : Clean ((repetitions [] names).map f) ↔ Distinct names := by
    rw [← repetitions_eq_nil_iff]
    cases repetitions [] names with
    | nil => simp [Clean]
    | cons r rs => simp [Clean, wrong r]
  have warnings {f : Ident × Span → Finding} (fine : ∀ r, (f r).isError = false)
      (names : List Ident) : Clean ((repetitions [] names).map f) := by
    intro x member
    obtain ⟨r, -, rfl⟩ := List.mem_map.1 member
    exact fine r
  rw [findings, clean_append, clean_append, and_iff_left (warnings (fun _ ↦ rfl) d.skills)]
  exact and_congr (errors (fun _ ↦ rfl) d.agents) (errors (fun _ ↦ rfl) _)

end Definitions

/-- Reminders are no errors. -/
theorem clean_commentFindings (comments : List Comment) : Clean (commentFindings comments) := by
  intro f member
  simp only [commentFindings, List.mem_filterMap, Option.map_eq_some_iff] at member
  obtain ⟨_, -, _, -, rfl⟩ := member
  rfl

private theorem clean_rawFindings (p : Program) (options : ValidatorOptions) :
    Clean (rawFindings p options) ↔ p.Valid options := by
  let k : Knowledge := { options, definitions := .ofProgram p }
  let start := k.definitions.findings
    ++ if options.warnOnTodoComments then commentFindings p.comments else []
  have atStart : Clean start
      ↔ Distinct k.definitions.agents ∧ Distinct (k.definitions.blocks.map Prod.fst) := by
    rw [clean_append, Definitions.clean_findings]
    apply and_iff_left
    split
    · exact clean_commentFindings p.comments
    · nofun
  have empty : Scopes.Means [[]] [Env.emptyScope] := Scopes.Means.nil.openScope
  obtain ⟨-, clean⟩ := Check.statements_accepts k {} [] [Env.emptyScope] p.statements
    { scopes := [[]], findings := start } empty
  change Clean (_ ++ Check.unusedFindings k _) ↔ _
  rw [clean_append, and_iff_left (clean_unused k _)]
  apply clean.trans
  rw [atStart]
  exact ⟨fun ⟨⟨agents, blocks⟩, statements⟩ ↦ ⟨agents, blocks, statements⟩,
    fun h ↦ ⟨⟨h.agents, h.blocks⟩, h.statements⟩⟩

/-- A program is accepted just if it is valid. -/
theorem validate_isValid_iff (p : Program) (options : ValidatorOptions) :
    (validate p options).isValid = true ↔ p.Valid options := by
  rw [← clean_rawFindings, ValidationResult.isValid, validate, List.isEmpty_iff,
    List.filter_eq_nil_iff]
  simp [Clean]

end ProseLang
