import ProseLang.Proofs.Canonical.Results

/-!
# What expansion keeps

A program gains what was not written and keeps all that was (`Program.Gains`): its bodies have the
same statements in the same order, a setting that is there stays as it is, and so do all names,
conditions, literals and places. Two things change. The arrows between sessions go, and a branch
whose result has no name becomes the value of an assignment. Expansion does no more than that to any
program, valid or not (`program_gains_canonical`).
-/

namespace ProseLang

/-- Whether what is written, if it is, stays as it is. -/
def Kept {α : Type} (written given : Option α) : Prop := ∀ x ∈ written, x ∈ given

namespace Kept

variable {α : Type}

private theorem refl (x : Option α) : Kept x x := fun _ h ↦ h

private theorem none (x : Option α) : Kept .none x := nofun

/-- What is written goes before what would be given instead. -/
theorem orElse (x y : Option α) : Kept x (x <|> y) := by
  rintro a rfl
  rfl

end Kept

/-- Whether a session gains settings that it does not have, and keeps the others. -/
structure SessionOf.Gains (s t : Session) : Prop where
  name : Kept s.name t.name
  prompt : Kept s.prompt t.prompt
  agent : t.agent = s.agent
  model : Kept s.model t.model
  skills : Kept s.skills t.skills
  context : s.context.isImplicit = false → t.context = s.context
  retry : t.retry = s.retry
  backoff : Kept s.backoff t.backoff
  properties : t.properties = s.properties
  keys : t.keys = s.keys
  arrow : t.arrow = none
  span : t.span = s.span

/-- Whether the header of a parallel block gains modifiers, and keeps those that it has. -/
structure ParallelOf.Gains (p q : Parallel) : Prop where
  join : Kept p.join q.join
  onFail : Kept p.onFail q.onFail
  count : Kept p.count q.count
  keys : q.keys = p.keys
  span : q.span = p.span

/-- Whether the header of a pipe operation gains names, and keeps those that it has. -/
structure OperationOf.Gains (o o' : Operation) : Prop where
  operator : o'.operator = o.operator
  item : Kept o.item o'.item
  accumulator : Kept o.accumulator o'.accumulator
  span : o'.span = o.span

/-- Whether a statement is a branch as it stands or, if it is an action whose result has no name, as
the value of an assignment. -/
def Statement.StandsAs (s t : Statement) : Prop :=
  match s with
  | .action a =>
    if a.resultName? = none then ∃ name, t
      = .assignment ⟨name, .action a, a.span⟩ else t = .action a
  | s => t = s

mutual

/-- Whether a statement becomes another one by gaining what was not written. -/
def Statement.Gains : Statement → Statement → Prop
  | .comment c, t => t = .comment c
  | .importSkill i, t => t = .importSkill i
  | .agent a, t => t = .agent a
  | .throw x, t => t = .throw x
  | .block ⟨name, params, body, span⟩, t =>
    ∃ body', BodyGains body body' ∧ t = .block ⟨name, params, body', span⟩
  | .binding kind ⟨name, value, span⟩, t =>
    ∃ value', value.Gains value' ∧ t = .binding kind ⟨name, value', span⟩
  | .assignment ⟨name, value, span⟩, t =>
    ∃ value', value.Gains value' ∧ t = .assignment ⟨name, value', span⟩
  | .action a, t => ∃ b, a.Gains b ∧ t = .action b
  | .parallel ⟨join, onFail, count, keys, body, span⟩, t =>
    ∃ q : Parallel, ParallelOf.Gains ⟨join, onFail, count, keys, [], span⟩ q
      ∧ BranchesGain body q.body ∧ t = .parallel q
  | .repeated ⟨count, index, body, span⟩, t =>
    ∃ body', BodyGains body body' ∧ t = .repeated ⟨count, index, body', span⟩
  | .forEach ⟨item, index, collection, isParallel, forKeyword, inKeyword, body, span⟩, t =>
    ∃ collection' body', collection.Gains collection' ∧ BodyGains body body'
      ∧ t = .forEach ⟨item, index, collection', isParallel, forKeyword, inKeyword, body', span⟩
  | .loop ⟨condition, maxIterations, index, keys, body, span⟩, t =>
    ∃ body', BodyGains body body' ∧ t = .loop ⟨condition, maxIterations, index, keys, body', span⟩
  | .attempt ⟨body, handler, cleanup, span⟩, t =>
    ∃ body' handler' cleanup', BodyGains body body' ∧ HandlerGains handler handler'
      ∧ ClauseGains cleanup cleanup' ∧ t = .attempt ⟨body', handler', cleanup', span⟩
  | .choice ⟨criteria, options, span⟩, t =>
    ∃ options', OptionsGain options options' ∧ t = .choice ⟨criteria, options', span⟩
  | .conditional ⟨branches, otherwise, span⟩, t =>
    ∃ branches' otherwise', ConditionsGain branches branches' ∧ ClauseGains otherwise otherwise'
      ∧ t = .conditional ⟨branches', otherwise', span⟩
termination_by structural s => s

/-- Whether the statements of a sequence become others, one by one and in order. -/
def BodyGains : List Statement → List Statement → Prop
  | [], body' => body' = []
  | s :: body, body' => ∃ t rest, s.Gains t ∧ BodyGains body rest ∧ body' = t :: rest
termination_by structural xs => xs

/-- Whether the branches of a parallel block become others, one by one and in order. -/
def BranchesGain : List Statement → List Statement → Prop
  | [], body' => body' = []
  | s :: body, body' =>
    ∃ t u rest, s.Gains t ∧ t.StandsAs u ∧ BranchesGain body rest ∧ body' = u :: rest
termination_by structural xs => xs

/-- Whether a handler becomes another one. -/
def HandlerGains : Option Handler → Option Handler → Prop
  | none, handler' => handler' = none
  | some ⟨error, body, span⟩, handler' =>
    ∃ body', BodyGains body body' ∧ handler' = some ⟨error, body', span⟩
termination_by structural x => x

/-- Whether a clause that has a body only becomes another one. -/
def ClauseGains : Option Body → Option Body → Prop
  | none, clause' => clause' = none
  | some ⟨body, span⟩, clause' => ∃ body', BodyGains body body' ∧ clause' = some ⟨body', span⟩
termination_by structural x => x

/-- Whether the options of a choice become others. -/
def OptionsGain : List ChoiceOption → List ChoiceOption → Prop
  | [], options' => options' = []
  | ⟨label, body, span⟩ :: options, options' =>
    ∃ body' rest, BodyGains body body' ∧ OptionsGain options rest
      ∧ options' = ⟨label, body', span⟩ :: rest
termination_by structural xs => xs

/-- Whether conditional branches become others. -/
def ConditionsGain : List Branch → List Branch → Prop
  | [], branches' => branches' = []
  | ⟨keyword, condition, body, span⟩ :: branches, branches' =>
    ∃ body' rest, BodyGains body body' ∧ ConditionsGain branches rest
      ∧ branches' = ⟨keyword, condition, body', span⟩ :: rest
termination_by structural xs => xs

/-- Whether an action becomes another one. -/
def Action.Gains : Action → Action → Prop
  | .session s, b => ∃ t, SessionOf.Gains s t ∧ b = .session t
  | .pipe ⟨input, operations, span⟩, b =>
    ∃ input' operations', input.Gains input' ∧ OperationsGain operations operations'
      ∧ b = .pipe ⟨input', operations', span⟩
  | .doBlock ⟨body, span⟩, b => ∃ body', BodyGains body body' ∧ b = .doBlock ⟨body', span⟩
  | .invoke ⟨name, args, span⟩, b =>
    ∃ args', ValuesGain args args' ∧ b = .invoke ⟨name, args', span⟩
termination_by structural a => a

/-- Whether pipe operations become others. -/
def OperationsGain : List Operation → List Operation → Prop
  | [], operations' => operations' = []
  | ⟨operator, item, accumulator, body, span⟩ :: operations, operations' =>
    ∃ (o : Operation) (rest : List Operation),
      OperationOf.Gains ⟨operator, item, accumulator, [], span⟩ o ∧ BodyGains body o.body
        ∧ OperationsGain operations rest ∧ operations' = o :: rest
termination_by structural xs => xs

/-- Whether a value becomes another one. -/
def Expr.Gains : Expr → Expr → Prop
  | .action a, f => ∃ b, a.Gains b ∧ f = .action b
  | .array ⟨items, span⟩, f => ∃ items', ValuesGain items items' ∧ f = .array ⟨items', span⟩
  | .object ⟨entries, span⟩, f =>
    ∃ entries', EntriesGain entries entries' ∧ f = .object ⟨entries', span⟩
  | .string s, f => f = .string s
  | .number n, f => f = .number n
  | .ident name, f => f = .ident name
  | .discretion d, f => f = .discretion d
termination_by structural e => e

/-- Whether values become others, one by one. -/
def ValuesGain : List Expr → List Expr → Prop
  | [], es' => es' = []
  | e :: es, es' => ∃ f rest, e.Gains f ∧ ValuesGain es rest ∧ es' = f :: rest
termination_by structural xs => xs

/-- Whether the entries of an object become others. -/
def EntriesGain : List Entry → List Entry → Prop
  | [], entries' => entries' = []
  | ⟨key, some value⟩ :: entries, entries' =>
    ∃ value' rest, value.Gains value' ∧ EntriesGain entries rest
      ∧ entries' = ⟨key, some value'⟩ :: rest
  | ⟨key, none⟩ :: entries, entries' =>
    ∃ rest, EntriesGain entries rest ∧ entries' = ⟨key, none⟩ :: rest
termination_by structural xs => xs

end

/-- Whether a program becomes another one by gaining what was not written. -/
structure Program.Gains (p q : Program) : Prop where
  statements : BodyGains p.statements q.statements
  comments : q.comments = p.comments
  span : q.span = p.span

/-! ## Headers -/

/-- A session that is written out gains settings and keeps its own. -/
theorem Expansion.session_gains (k : Expansion) (context : Context) (s : Session) :
    s.Gains (k.session context s) := by
  have own (t : Session) (written : t.context.isImplicit = false) :
      (if t.context.isImplicit then context else t.context) = t.context :=
    if_neg (by simp [written])
  unfold session withAgent
  split
  · exact ⟨.refl _, .refl _, rfl, .refl _, .refl _, own s, rfl, .orElse _ _, rfl, rfl, rfl, rfl⟩
  · exact ⟨.refl _, .orElse _ _, rfl, .orElse _ _, .orElse _ _, own s, rfl, .orElse _ _, rfl,
      rfl, rfl, rfl⟩

private theorem ParallelOf.withDefaults_gains (p : Parallel) : p.Gains p.withDefaults where
  join := by
    rintro join written
    rw [withDefaults, Option.mem_def.1 written]
    rfl
  onFail := .orElse _ _
  count := .orElse _ _
  keys := rfl
  span := rfl

private theorem OperationOf.named_gains (o : Operation) (body : List Statement) :
    o.Gains ⟨o.operator, some o.itemIdent, o.accumulatorIdent?, body, o.span⟩ where
  operator := rfl
  item := by
    rintro item written
    rw [itemIdent, Option.mem_def.1 written]
    rfl
  accumulator := by
    rintro accumulator written
    rw [accumulatorIdent?, Option.mem_def.1 written]
    split <;> rfl
  span := rfl

/-! ## Statements of bodies and branches -/

/-- What becomes an action is one. -/
theorem Statement.Gains.action {s : Statement} {b : Action} (h : s.Gains (.action b)) :
    ∃ a, s = .action a ∧ a.Gains b := by
  cases s with
  | action a =>
    obtain ⟨b', gains, same⟩ := h
    obtain rfl := Statement.action.inj same
    exact ⟨a, rfl, gains⟩
  | comment | importSkill | agent | throw => cases h
  | block | binding | assignment | repeated | loop | choice => obtain ⟨_, _, same⟩ := h; cases same
  | parallel => obtain ⟨_, _, _, same⟩ := h; cases same
  | forEach | conditional => obtain ⟨_, _, _, _, same⟩ := h; cases same
  | attempt => obtain ⟨_, _, _, _, _, _, same⟩ := h; cases same

private theorem Statement.Gains.withName {k : Expansion} {s t : Statement} (h : s.Gains t) :
    Yields s.Gains (t.withName k) := by
  refine t.withName_yields (P := s.Gains) h ?_
  rintro x name rfl unnamed - -
  obtain ⟨a, rfl, gains⟩ := h.action
  cases a with
  | session y =>
    obtain ⟨_, gains, ⟨⟩⟩ := gains
    have none : y.name = none :=
      Option.eq_none_iff_forall_not_mem.2 fun n written ↦ nomatch unnamed ▸ gains.name n written
    have named : y.Gains { x with name := some name } := { gains with name := none ▸ .none _ }
    exact ⟨_, ⟨_, named, rfl⟩, rfl⟩
  | pipe => obtain ⟨_, _, _, _, ⟨⟩⟩ := gains
  | doBlock | invoke => obtain ⟨_, _, ⟨⟩⟩ := gains

private theorem Statement.standsAs_asBranch (s : Statement) (i : Nat) :
    s.StandsAs (s.asBranch i) := by
  cases s with
  | action a =>
    cases a with
    | session t =>
      cases named : t.name <;> simp [asBranch, StandsAs, Action.resultName?, Action.span, named]
    | pipe | doBlock | invoke => exact ⟨_, rfl⟩
  | _ => rfl

private theorem Statement.standsAs_of_not_executable {s : Statement} (h : s.isExecutable = false) :
    s.StandsAs s := by
  cases s with
  | action a => cases h
  | _ => rfl

/-! ## Expansion only adds -/

section

variable (k : Expansion)

mutual

private theorem Statement.gains_canonical (context : Context) :
    (s : Statement) → Yields s.Gains (s.canonical k context)
  | .comment _ | .importSkill _ | .agent _ | .throw _ => .pure rfl
  | .block ⟨_, _, body, _⟩ => .bind (bodyGains_canonical .empty body) fun _ h ↦ .pure ⟨_, h, rfl⟩
  | .binding _ ⟨_, value, _⟩ => .bind (value.gains_canonical context) fun _ h ↦ .pure ⟨_, h, rfl⟩
  | .assignment ⟨_, value, _⟩ => .bind (value.gains_canonical context) fun _ h ↦ .pure ⟨_, h, rfl⟩
  | .action a => .bind (a.gains_canonical context) fun _ h ↦ .pure ⟨_, h, rfl⟩
  | .parallel ⟨join, onFail, count, keys, body, span⟩ =>
    .bind (branchesGain_canonical context 0 body) fun body' h ↦ by
      have header := ParallelOf.withDefaults_gains ⟨join, onFail, count, keys, [], span⟩
      exact .pure ⟨{ ParallelOf.withDefaults ⟨join, onFail, count, keys, [], span⟩ with body := body' },
        ⟨header.join, header.onFail, header.count, header.keys, header.span⟩, h, rfl⟩
  | .repeated ⟨_, _, body, _⟩ =>
    .bind (bodyGains_canonical context body) fun _ h ↦ .pure ⟨_, h, rfl⟩
  | .forEach ⟨_, _, collection, _, _, _, body, _⟩ =>
    .bind (collection.gains_canonical context) fun _ hc ↦
      .bind (bodyGains_canonical context body) fun _ hb ↦ .pure ⟨_, _, hc, hb, rfl⟩
  | .loop ⟨_, _, _, _, body, _⟩ =>
    .bind (bodyGains_canonical context body) fun _ h ↦ .pure ⟨_, h, rfl⟩
  | .attempt ⟨body, handler, cleanup, _⟩ =>
    .bind (bodyGains_canonical context body) fun _ hb ↦
      .bind (handlerGains_canonical context handler) fun _ hh ↦
        .bind (clauseGains_canonical context cleanup) fun _ hc ↦ .pure ⟨_, _, _, hb, hh, hc, rfl⟩
  | .choice ⟨_, options, _⟩ =>
    .bind (optionsGain_canonical context options) fun _ h ↦ .pure ⟨_, h, rfl⟩
  | .conditional ⟨branches, otherwise, _⟩ =>
    .bind (conditionsGain_canonical context branches) fun _ hb ↦
      .bind (clauseGains_canonical context otherwise) fun _ ho ↦ .pure ⟨_, _, hb, ho, rfl⟩

/-- Expansion keeps the statements of a sequence. -/
theorem bodyGains_canonical (context : Context) :
    (body : List Statement) → Yields (BodyGains body) (canonicalBody k context body)
  | [] => .pure rfl
  | s :: body =>
    .bind (s.gains_canonical context) fun _ h ↦ .bind h.withName fun _ hs ↦
      .bind (bodyGains_canonical _ body) fun _ hb ↦ .pure ⟨_, _, hs, hb, rfl⟩

private theorem branchesGain_canonical (context : Context) (i : Nat) :
    (body : List Statement) → Yields (BranchesGain body) (canonicalBranches k context i body)
  | [] => .pure rfl
  | s :: body =>
    .bind (s.gains_canonical context) fun t hs ↦ by
      split
      · exact .bind (branchesGain_canonical context (i + 1) body) fun _ hb ↦
          .pure ⟨_, _, _, hs, t.standsAs_asBranch i, hb, rfl⟩
      · next plain =>
        have stands := Statement.standsAs_of_not_executable (Bool.not_eq_true _ ▸ plain)
        exact .bind (branchesGain_canonical context i body) fun _ hb ↦
          .pure ⟨_, _, _, hs, stands, hb, rfl⟩

private theorem handlerGains_canonical (context : Context) :
    (handler : Option Handler) → Yields (HandlerGains handler) (canonicalHandler k context handler)
  | none => .pure rfl
  | some ⟨_, body, _⟩ => .bind (bodyGains_canonical context body) fun _ h ↦ .pure ⟨_, h, rfl⟩

private theorem clauseGains_canonical (context : Context) :
    (clause : Option Body) → Yields (ClauseGains clause) (canonicalClause k context clause)
  | none => .pure rfl
  | some ⟨body, _⟩ => .bind (bodyGains_canonical context body) fun _ h ↦ .pure ⟨_, h, rfl⟩

private theorem optionsGain_canonical (context : Context) :
    (options : List ChoiceOption) → Yields (OptionsGain options)
    (canonicalOptions k context options)
  | [] => .pure rfl
  | ⟨_, body, _⟩ :: options =>
    .bind (bodyGains_canonical context body) fun _ hb ↦
      .bind (optionsGain_canonical context options) fun _ ho ↦ .pure ⟨_, _, hb, ho, rfl⟩

private theorem conditionsGain_canonical (context : Context) :
    (branches : List Branch) →
      Yields (ConditionsGain branches) (canonicalConditions k context branches)
  | [] => .pure rfl
  | ⟨_, _, body, _⟩ :: branches =>
    .bind (bodyGains_canonical context body) fun _ hb ↦
      .bind (conditionsGain_canonical context branches) fun _ ho ↦ .pure ⟨_, _, hb, ho, rfl⟩

private theorem Action.gains_canonical (context : Context) :
    (a : Action) → Yields a.Gains (a.canonical k context)
  | .session s => .pure ⟨_, k.session_gains context s, rfl⟩
  | .pipe ⟨input, operations, _⟩ =>
    .bind (input.gains_canonical context) fun _ hi ↦
      .bind (operationsGain_canonical operations) fun _ ho ↦ .pure ⟨_, _, hi, ho, rfl⟩
  | .doBlock ⟨body, _⟩ => .bind (bodyGains_canonical context body) fun _ h ↦ .pure ⟨_, h, rfl⟩
  | .invoke ⟨_, args, _⟩ => .bind (valuesGain_canonical context args) fun _ h ↦ .pure ⟨_, h, rfl⟩

private theorem operationsGain_canonical :
    (operations : List Operation) →
      Yields (OperationsGain operations) (canonicalOperations k operations)
  | [] => .pure rfl
  | ⟨operator, item, accumulator, body, span⟩ :: operations =>
    .bind (bodyGains_canonical _ body) fun body' hb ↦
      .bind (operationsGain_canonical operations) fun _ ho ↦ .pure
        ⟨_, _, OperationOf.named_gains ⟨operator, item, accumulator, [], span⟩ body', hb, ho, rfl⟩

private theorem Expr.gains_canonical (context : Context) :
    (e : Expr) → Yields e.Gains (e.canonical k context)
  | .action a => .bind (a.gains_canonical context) fun _ h ↦ .pure ⟨_, h, rfl⟩
  | .string _ | .number _ | .ident _ | .discretion _ => .pure rfl
  | .array ⟨items, _⟩ => .bind (valuesGain_canonical context items) fun _ h ↦ .pure ⟨_, h, rfl⟩
  | .object ⟨entries, _⟩ =>
    .bind (entriesGain_canonical context entries) fun _ h ↦ .pure ⟨_, h, rfl⟩

private theorem valuesGain_canonical (context : Context) :
    (es : List Expr) → Yields (ValuesGain es) (canonicalValues k context es)
  | [] => .pure rfl
  | e :: es =>
    .bind (e.gains_canonical context) fun _ he ↦
      .bind (valuesGain_canonical context es) fun _ hs ↦ .pure ⟨_, _, he, hs, rfl⟩

private theorem entriesGain_canonical (context : Context) :
    (entries : List Entry) → Yields (EntriesGain entries) (canonicalEntries k context entries)
  | [] => .pure rfl
  | ⟨_, some value⟩ :: entries =>
    .bind (value.gains_canonical context) fun _ hv ↦
      .bind (entriesGain_canonical context entries) fun _ he ↦ .pure ⟨_, _, hv, he, rfl⟩
  | ⟨_, none⟩ :: entries =>
    .bind (entriesGain_canonical context entries) fun _ he ↦ .pure ⟨_, he, rfl⟩

end

end

end ProseLang
