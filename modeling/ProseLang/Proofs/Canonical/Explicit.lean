import ProseLang.Canonical.Compilation
import ProseLang.Grammar.Parsing
import ProseLang.Proofs.Canonical.Results

/-!
# Nothing is left implicit

Expansion of a valid program writes everything out: at every depth sessions have a context of their
own and no arrow, results have names, parallel blocks have their strategy and policy, and pipe
operations name what they bind (`compile_explicit`). What is asked of each part of the result says
nothing of expansion, and the parts are all that there are (`Program.visits`), so no place for a
statement or a value can have been left out. The settings of agents and sessions, which expansion
does not look into, hold no session in a valid program.

It follows that no statement is taken to use the result of the one before it
(`Check.seesPredecessor`).
-/

namespace ProseLang

open Check (isOpenSession outsideSessions)

/-- Whether a session states its context and what its retries wait for, and no arrow leads on. -/
structure SessionOf.IsExplicit (s : Session) : Prop where
  arrow : s.arrow = none
  context : s.context.isImplicit = false
  backoff : s.retry.isSome → s.backoff.isSome

/-- Whether every session among the statements of a sequence has a name. -/
def BodyNamed (body : List Statement) : Prop := ∀ s ∈ body, s.IsNamed

/-- Whether nothing about a part of a program is left implicit, what is further within it apart. -/
def Visit.IsExplicit : Visit → Prop
  | .statement (.parallel p) => p.HasDefaults ∧ ∀ s ∈ p.body, s.IsNamedBranch
  | .statement (.block b) => BodyNamed b.body
  | .statement (.repeated r) => BodyNamed r.body
  | .statement (.forEach f) => BodyNamed f.body
  | .statement (.loop l) => BodyNamed l.body
  | .statement (.attempt t) =>
    BodyNamed t.body ∧ (∀ h ∈ t.handler, BodyNamed h.body) ∧ ∀ c ∈ t.cleanup, BodyNamed c.body
  | .statement (.choice c) => ∀ o ∈ c.options, BodyNamed o.body
  | .statement (.conditional c) =>
    (∀ b ∈ c.branches, BodyNamed b.body) ∧ ∀ o ∈ c.otherwise, BodyNamed o.body
  | .action (.session s) => s.IsExplicit
  | .action (.doBlock d) => BodyNamed d.body
  | .operation o => o.HasNames ∧ BodyNamed o.body
  | _ => True

/-! ## Settings -/

/-- Whether a part is neither a statement nor an action, nor an operation. -/
def Visit.isSetting : Visit → Bool
  | .statement _ | .statementEnd | .action _ | .operation _ => false
  | _ => true

/-- A string of settings is a setting. -/
theorem Visit.isSetting_strings {s : Option StringLit} : ∀ v ∈ strings s, v.isSetting = true := by
  cases s with
  | none => nofun
  | some s => exact List.forall_mem_singleton.2 rfl

/-- A permission is no place for a session. -/
theorem Check.isSetting_of_isPermission {inside : Visit → Bool} {value : PropertyValue}
    (h : isPermission value = true) : ∀ v ∈ value.visits inside, v.isSetting = true := by
  have pair (a b : Visit) (ha : a.isSetting = true) (hb : b.isSetting = true) :
      ∀ v ∈ [a, b], v.isSetting = true :=
    List.forall_mem_cons.2 ⟨ha, List.forall_mem_singleton.2 hb⟩
  have patterns (items : List Expr) (all : items.all isString = true) :
      ∀ v ∈ valueVisits inside items, v.isSetting = true := by
    induction items with
    | nil => nofun
    | cons e items ih =>
      obtain ⟨first, rest⟩ := Bool.and_eq_true_iff.1 (List.all_cons ▸ all)
      cases e with
      | string s => exact List.forall_mem_append.2 ⟨pair _ _ rfl rfl, ih rest⟩
      | _ => cases first
  cases value with
  | expr e =>
    cases e with
    | ident | string => exact pair _ _ rfl rfl
    | array a => exact List.forall_mem_cons.2 ⟨rfl, patterns a.items h⟩
    | _ => cases h
  | _ => cases h

/-- The settings of a valid agent have no session in them. -/
theorem AgentOf.Valid.isSetting {inside : Visit → Bool} {K : Knowledge} {a : Agent}
    (valid : a.Valid K) : ∀ v ∈ (Statement.agent a).visits inside, v.isSetting = true := by
  have permissions (properties : List Property) (all : ∀ p ∈ properties, p.IsPermission) :
      ∀ v ∈ propertyVisits inside properties, v.isSetting = true := by
    induction properties with
    | nil => nofun
    | cons p properties ih =>
      obtain ⟨first, rest⟩ := List.forall_mem_cons.1 all
      refine List.forall_mem_append.2 ⟨List.forall_mem_cons.2 ⟨rfl, ?_⟩, ih rest⟩
      split
      · exact Check.isSetting_of_isPermission first.value
      · nofun
  have known := valid.permissions
  have others := valid.properties
  rcases a with ⟨name, model, prompt, skills, given, properties, keys, span⟩
  obtain rfl : properties = [] := others
  refine List.forall_mem_append.2 ⟨List.forall_mem_append.2 ⟨Visit.isSetting_strings, ?_⟩, nofun⟩
  cases given with
  | none => nofun
  | some given => exact permissions given known

/-! ## Parts that are explicit -/

/-- Whether nothing about parts of a program is left implicit. -/
def Explicit (vs : List Visit) : Prop := ∀ v ∈ vs, v.IsExplicit

namespace Explicit

variable {v : Visit} {vs vs' : List Visit} {inside : Visit → Bool}

private theorem nil : Explicit [] := fun _ member ↦ absurd member List.not_mem_nil

private theorem cons (here : v.IsExplicit) (h : Explicit vs) : Explicit (v :: vs) :=
  List.forall_mem_cons.2 ⟨here, h⟩

private theorem append (h : Explicit vs) (h' : Explicit vs') : Explicit (vs ++ vs') :=
  List.forall_mem_append.2 ⟨h, h'⟩

private theorem opened (here : v.IsExplicit) (h : Explicit vs) : Explicit (v.opened inside vs) := by
  refine .cons here ?_
  split
  · exact h
  · exact nil

/-- The statements of a sequence, one after the other. -/
theorem body {s : Statement} {body : List Statement} (here : (Visit.statement s).IsExplicit)
    (h : Explicit (s.visits inside)) (rest : Explicit (bodyVisits inside body)) :
    Explicit (bodyVisits inside (s :: body)) :=
  (opened here h).append (.cons trivial rest)

/-- Settings leave nothing implicit. -/
theorem settings (h : ∀ v ∈ vs, v.isSetting = true) : Explicit vs := by
  intro v member
  cases v with
  | statement | statementEnd | action | operation => cases h _ member
  | _ => trivial

/-- A session without other settings than those that sessions have. -/
theorem session {s : Session} (explicit : s.IsExplicit) (none : s.properties = []) :
    Explicit (Visit.opened inside (.action (.session s)) ((Action.session s).visits inside)) := by
  rcases s with ⟨name, prompt, agent, model, skills, context, retry, backoff, properties⟩
  obtain rfl : properties = [] := none
  exact opened explicit (append (settings Visit.isSetting_strings) (cons trivial nil))

end Explicit

/-! ## Names -/

private theorem Statement.withName_isNamed (k : Expansion) (s : Statement) :
    Yields Statement.IsNamed (s.withName k) := by
  cases s with
  | action a =>
    cases a with
    | session t =>
      rw [withName]
      split
      · next name named => exact .pure (by simp [IsNamed, named])
      · exact .bind (.any _) fun _ _ ↦ .pure rfl
    | pipe | doBlock | invoke => exact .pure trivial
  | _ => exact .pure trivial

private theorem Statement.asBranch_isNamedBranch (s : Statement) (i : Nat) :
    (s.asBranch i).IsNamedBranch := by
  cases s with
  | action a =>
    cases a with
    | session t =>
      rw [asBranch]
      split
      · next named => exact named
      · trivial
    | pipe | doBlock | invoke => trivial
  | _ => trivial

/-! ## Expansion writes everything out -/

section

set_option linter.unusedSectionVars false

-- The name that a session gets must not decide whether to look into it.
variable {k : Expansion} {K : Knowledge} {inside : Visit → Bool}
  (blind : ∀ (s : Session) (name : Option Ident),
    inside (.action (.session { s with name })) = inside (.action (.session s)))

include blind

mutual

private theorem Statement.canonical_explicit {context : Context}
    (written : context.isImplicit = false) {p : Place} {Γ : Env} :
    (s : Statement) → s.Valid K p Γ →
      Yields (fun t ↦ (Visit.statement t).IsExplicit ∧ Explicit (t.visits inside))
        (s.canonical k context)
  | .comment _, _ => .pure ⟨trivial, .nil⟩
  | .importSkill _, _ => .pure ⟨trivial, .cons trivial (.cons trivial .nil)⟩
  | .agent _, valid => .pure ⟨trivial, .settings valid.isSetting⟩
  | .throw _, _ => .pure ⟨trivial, .settings Visit.isSetting_strings⟩
  | .block ⟨_, _, body, _⟩, ⟨_, valid⟩ =>
    .bind (canonicalBody_explicit rfl body valid) fun _ h ↦ .pure h
  | .binding _ ⟨_, value, _⟩, ⟨valid, _⟩ =>
    .bind (value.canonical_explicit written valid) fun _ h ↦ .pure ⟨trivial, h⟩
  | .assignment ⟨_, value, _⟩, ⟨valid, _⟩ =>
    .bind (value.canonical_explicit written valid) fun _ h ↦ .pure ⟨trivial, h⟩
  | .action a, ⟨valid, _⟩ =>
    .bind (a.canonical_explicit written valid) fun _ h ↦ .pure ⟨trivial, h⟩
  | .parallel ⟨_, _, _, _, body, _⟩, ⟨_, valid⟩ =>
    .bind (canonicalBranches_explicit written 0 body valid) fun _ h ↦ by
      have header (p : Parallel) (body : List Statement) :
          ParallelOf.HasDefaults { p.withDefaults with body } := by
        obtain ⟨join, onFail, count⟩ := p.withDefaults_hasDefaults
        exact ⟨join, onFail, count⟩
      exact .pure ⟨⟨header _ _, h.1⟩, h.2⟩
  | .repeated ⟨_, _, body, _⟩, valid =>
    .bind (canonicalBody_explicit written body valid) fun _ h ↦ .pure h
  | .forEach ⟨_, _, collection, _, _, _, body, _⟩, ⟨valid, _, inner⟩ =>
    .bind (collection.canonical_explicit written valid) fun _ first ↦
      .bind (canonicalBody_explicit written body inner) fun _ h ↦ .pure ⟨h.1, first.append h.2⟩
  | .loop ⟨condition, _, _, _, body, _⟩, valid => by
    have asked : Explicit (condition.map fun c ↦ Visit.discretion c.discretion).toList := by
      cases condition with
      | none => exact .nil
      | some c => exact .cons trivial .nil
    exact .bind (canonicalBody_explicit written body valid) fun _ h ↦ .pure ⟨h.1, asked.append h.2⟩
  | .attempt ⟨body, handler, cleanup, _⟩, ⟨valid, handled, cleaned⟩ =>
    .bind (canonicalBody_explicit written body valid) fun _ hb ↦
      .bind (canonicalHandler_explicit written handler handled) fun _ hh ↦
        .bind (canonicalClause_explicit written cleanup cleaned) fun _ hc ↦
          .pure ⟨⟨hb.1, hh.1, hc.1⟩, (hb.2.append hh.2).append hc.2⟩
  | .choice ⟨_, options, _⟩, valid =>
    .bind (canonicalOptions_explicit written options valid) fun _ h ↦
      .pure ⟨h.1, .cons trivial h.2⟩
  | .conditional ⟨branches, otherwise, _⟩, ⟨valid, rest⟩ =>
    .bind (canonicalConditions_explicit written branches valid) fun _ hb ↦
      .bind (canonicalClause_explicit written otherwise rest) fun _ ho ↦
        .pure ⟨⟨hb.1, ho.1⟩, hb.2.append ho.2⟩

/-- Expansion leaves nothing implicit in a sequence whose place has a context. -/
theorem canonicalBody_explicit {context : Context} (written : context.isImplicit = false)
    {p : Place} {Γ : Env} :
    (body : List Statement) → BodyValid K p Γ body →
      Yields (fun body' ↦ BodyNamed body' ∧ Explicit (bodyVisits inside body'))
        (canonicalBody k context body)
  | [], _ => .pure ⟨fun _ member ↦ absurd member List.not_mem_nil, .nil⟩
  | s :: body, ⟨valid, rest⟩ => by
    refine .bind (s.canonical_explicit written valid) fun t explicit ↦ ?_
    have kept : Yields (fun u ↦ (Visit.statement u).IsExplicit ∧ Explicit (u.visits inside))
        (t.withName k) := by
      refine t.withName_yields
        (P := fun u ↦ (Visit.statement u).IsExplicit ∧ Explicit (u.visits inside)) explicit ?_
      rintro x name rfl - - -
      obtain ⟨here, within⟩ := List.forall_mem_cons.1 explicit.2
      rw [← blind x (some name)] at within
      exact ⟨trivial, .cons ⟨here.arrow, here.context, here.backoff⟩ within⟩
    refine .bind (kept.and (t.withName_isNamed k)) fun u ⟨⟨here, within⟩, named⟩ ↦ ?_
    have next : (if u.isExecutable then u.resultContext else context).isImplicit = false := by
      split
      · exact u.resultContext_not_implicit
      · exact written
    exact .bind (canonicalBody_explicit next body rest) fun _ h ↦
      .pure ⟨List.forall_mem_cons.2 ⟨named, h.1⟩, .body here within h.2⟩

private theorem canonicalBranches_explicit {context : Context}
    (written : context.isImplicit = false) {p : Place} {Γ : Env} (i : Nat) :
    (body : List Statement) → BodyValid K p Γ body →
      Yields (fun body' ↦ (∀ s ∈ body', s.IsNamedBranch) ∧ Explicit (bodyVisits inside body'))
        (canonicalBranches k context i body)
  | [], _ => .pure ⟨fun _ member ↦ absurd member List.not_mem_nil, .nil⟩
  | s :: body, ⟨valid, rest⟩ => by
    refine .bind (s.canonical_explicit written valid) fun t explicit ↦ ?_
    split
    · have kept : (Visit.statement (t.asBranch i)).IsExplicit
          ∧ Explicit ((t.asBranch i).visits inside) := by
        apply t.asBranch_cases
          (P := fun u ↦ (Visit.statement u).IsExplicit ∧ Explicit (u.visits inside)) explicit
        rintro a rfl -
        exact ⟨trivial, explicit.2⟩
      exact .bind (canonicalBranches_explicit written (i + 1) body rest) fun _ h ↦
        .pure ⟨List.forall_mem_cons.2 ⟨t.asBranch_isNamedBranch i, h.1⟩, .body kept.1 kept.2 h.2⟩
    · next plain =>
      have named := Statement.isNamedBranch_of_not_executable (Bool.not_eq_true _ ▸ plain)
      exact .bind (canonicalBranches_explicit written i body rest) fun _ h ↦
        .pure ⟨List.forall_mem_cons.2 ⟨named, h.1⟩, .body explicit.1 explicit.2 h.2⟩

private theorem canonicalHandler_explicit {context : Context} (written : context.isImplicit = false)
    {p : Place} {Γ : Env} :
    (handler : Option Handler) → HandlerValid K p Γ handler →
      Yields (fun handler' ↦
          (∀ h ∈ handler', BodyNamed h.body) ∧ Explicit (handlerVisits inside handler'))
        (canonicalHandler k context handler)
  | none, _ => .pure ⟨nofun, .nil⟩
  | some ⟨_, body, _⟩, valid =>
    .bind (canonicalBody_explicit written body valid) fun _ h ↦
      .pure ⟨by rintro _ ⟨⟩; exact h.1, h.2⟩

private theorem canonicalClause_explicit {context : Context} (written : context.isImplicit = false)
    {p : Place} {Γ : Env} :
    (clause : Option Body) → ClauseValid K p Γ clause →
      Yields (fun clause' ↦
          (∀ c ∈ clause', BodyNamed c.body) ∧ Explicit (clauseVisits inside clause'))
        (canonicalClause k context clause)
  | none, _ => .pure ⟨nofun, .nil⟩
  | some ⟨body, _⟩, valid =>
    .bind (canonicalBody_explicit written body valid) fun _ h ↦
      .pure ⟨by rintro _ ⟨⟩; exact h.1, h.2⟩

private theorem canonicalOptions_explicit {context : Context} (written : context.isImplicit = false)
    {p : Place} {Γ : Env} :
    (options : List ChoiceOption) → OptionsValid K p Γ options →
      Yields (fun options' ↦
          (∀ o ∈ options', BodyNamed o.body) ∧ Explicit (optionVisits inside options'))
        (canonicalOptions k context options)
  | [], _ => .pure ⟨nofun, .nil⟩
  | ⟨_, body, _⟩ :: options, ⟨_, valid, rest⟩ =>
    .bind (canonicalBody_explicit written body valid) fun _ first ↦
      .bind (canonicalOptions_explicit written options rest) fun _ h ↦
        .pure ⟨List.forall_mem_cons.2 ⟨first.1, h.1⟩, .append (.cons trivial first.2) h.2⟩

private theorem canonicalConditions_explicit {context : Context}
    (written : context.isImplicit = false) {p : Place} {Γ : Env} :
    (branches : List Branch) → BranchesValid K p Γ branches →
      Yields (fun branches' ↦
          (∀ b ∈ branches', BodyNamed b.body) ∧ Explicit (branchVisits inside branches'))
        (canonicalConditions k context branches)
  | [], _ => .pure ⟨nofun, .nil⟩
  | ⟨_, _, body, _⟩ :: branches, ⟨valid, rest⟩ =>
    .bind (canonicalBody_explicit written body valid) fun _ first ↦
      .bind (canonicalConditions_explicit written branches rest) fun _ h ↦
        .pure ⟨List.forall_mem_cons.2 ⟨first.1, h.1⟩, .append (.cons trivial first.2) h.2⟩

private theorem Action.canonical_explicit {context : Context} (written : context.isImplicit = false)
    {p : Place} {Γ : Env} :
    (a : Action) → a.Valid K p Γ →
      Yields (fun b ↦ Explicit (Visit.opened inside (.action b) (b.visits inside)))
        (a.canonical k context)
  | .session s, valid => by
    have settled := k.session_settled s written
    have none : (k.session context s).properties = [] := by
      rw [← valid.properties, Expansion.session, Expansion.withAgent]
      split <;> rfl
    exact .pure (.session ⟨settled.arrow, settled.context, settled.backoff⟩ none)
  | .pipe ⟨input, operations, _⟩, ⟨valid, rest⟩ =>
    .bind (input.canonical_explicit written valid) fun _ first ↦
      .bind (canonicalOperations_explicit operations rest) fun _ h ↦
        .pure (.opened trivial (first.append h))
  | .doBlock ⟨body, _⟩, valid =>
    .bind (canonicalBody_explicit written body valid) fun _ h ↦ .pure (.opened h.1 h.2)
  | .invoke ⟨_, args, _⟩, ⟨valid, _⟩ =>
    .bind (canonicalValues_explicit written args valid) fun _ h ↦ .pure (.opened trivial h)

private theorem canonicalOperations_explicit {p : Place} {Γ : Env} :
    (operations : List Operation) → OperationsValid K p Γ operations →
      Yields (fun operations' ↦ Explicit (operationVisits inside operations'))
        (canonicalOperations k operations)
  | [], _ => .pure .nil
  | ⟨operator, item, accumulator, body, span⟩ :: operations, ⟨_, valid, rest⟩ =>
    .bind (canonicalBody_explicit (OperationOf.bodyContext_not_implicit _) body valid)
      fun body' first ↦ .bind (canonicalOperations_explicit operations rest) fun _ h ↦ by
        have names : OperationOf.HasNames ⟨operator,
            some (OperationOf.itemIdent ⟨operator, item, accumulator, [], span⟩),
            OperationOf.accumulatorIdent? ⟨operator, item, accumulator, [], span⟩, body', span⟩ :=
          ⟨rfl, fun reduce ↦ by simp only [OperationOf.accumulatorIdent?, if_pos reduce,
            Option.isSome_some]⟩
        exact .pure (.append (.opened ⟨names, first.1⟩ first.2) h)

private theorem Expr.canonical_explicit {context : Context} (written : context.isImplicit = false)
    {p : Place} {Γ : Env} :
    (e : Expr) → e.Valid K p Γ →
      Yields (fun x ↦ Explicit (x.visits inside)) (e.canonical k context)
  | .action a, valid => .bind (a.canonical_explicit written valid) fun _ h ↦ .pure h
  | .string _, _ | .ident _, _ | .discretion _, _ => .pure (.cons trivial (.cons trivial .nil))
  | .number _, _ => .pure (.cons trivial .nil)
  | .array ⟨items, _⟩, valid =>
    .bind (canonicalValues_explicit written items valid) fun _ h ↦ .pure (.cons trivial h)
  | .object ⟨entries, _⟩, valid =>
    .bind (canonicalEntries_explicit written entries valid) fun _ h ↦ .pure (.cons trivial h)

private theorem canonicalValues_explicit {context : Context} (written : context.isImplicit = false)
    {p : Place} {Γ : Env} :
    (es : List Expr) → ValuesValid K p Γ es →
      Yields (fun es' ↦ Explicit (valueVisits inside es')) (canonicalValues k context es)
  | [], _ => .pure .nil
  | e :: es, ⟨valid, rest⟩ =>
    .bind (e.canonical_explicit written valid) fun _ first ↦
      .bind (canonicalValues_explicit written es rest) fun _ h ↦ .pure (first.append h)

private theorem canonicalEntries_explicit {context : Context} (written : context.isImplicit = false)
    {p : Place} {Γ : Env} :
    (entries : List Entry) → EntriesValid K p Γ entries →
      Yields (fun entries' ↦ Explicit (entryVisits inside entries'))
        (canonicalEntries k context entries)
  | [], _ => .pure .nil
  | ⟨_, some value⟩ :: entries, ⟨valid, rest⟩ =>
    .bind (value.canonical_explicit written valid) fun _ first ↦
      .bind (canonicalEntries_explicit written entries rest) fun _ h ↦ .pure (first.append h)
  | ⟨_, none⟩ :: entries, ⟨_, rest⟩ =>
    .bind (canonicalEntries_explicit written entries rest) fun _ h ↦ .pure (.cons trivial h)

end

end

/-- Whether no session among parts of a program is without a context. -/
def Closed (vs : List Visit) : Prop := ∀ v ∈ vs, isOpenSession v = false

private theorem Explicit.closed {vs : List Visit} (h : Explicit vs) : Closed vs := by
  intro v member
  cases v with
  | action a =>
    cases a with
    | session s => exact (h _ member).context
    | _ => rfl
  | _ => rfl

/-- Where every session has a context, none sees the predecessor. -/
theorem Closed.seesPredecessor {s : Statement} (h : Closed (s.visits outsideSessions)) :
    Check.seesPredecessor s = false :=
  List.any_eq_false.2 fun v member ↦ Bool.eq_false_iff.1 (h v member)

/-- Where a context is handed down, every session of a valid statement has one after expansion. -/
theorem Statement.canonical_closed {k : Expansion} {K : Knowledge} {context : Context}
    (written : context.isImplicit = false) {p : Place} {Γ : Env} (s : Statement)
    (valid : s.Valid K p Γ) :
    Yields (fun t ↦ Closed (t.visits outsideSessions)) (s.canonical k context) :=
  fun n ↦ (s.canonical_explicit (fun _ _ ↦ rfl) written valid n).2.closed

end ProseLang
