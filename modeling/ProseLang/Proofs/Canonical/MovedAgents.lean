import ProseLang.Proofs.Validation.MovedAgents

/-!
# Canonical programs with agents in other places

Expansion looks an agent up by its name, and it counts names without regard to where they are bound
(`Expansion.Agrees`). It passes over an agent as over a comment: the agent takes no name and hands
on the context of the statement before it (`canonicalBody_withoutAgents`). So moving the agents of a
program and bringing it into canonical form may change places (`Program.MovesAgents.canonical`).

Where agents stand after the imports matters neither for what is found about a valid program nor for
the other statements that it is compiled to (`program_movesAgents`).
-/

namespace ProseLang

/-! ## What expansion knows -/

/-- Whether expansion knows the same of two programs. -/
structure Expansion.Agrees (k l : Expansion) : Prop where
  agentOf : ∀ s, l.agentOf? s = k.agentOf? s
  fresh : ∀ start, freshIndex l.used start = freshIndex k.used start

section

-- the theorems of the mutual block share the hypothesis, and some need it for the others only
set_option linter.unusedSectionVars false

variable {k l : Expansion} (h : k.Agrees l)
include h

private theorem Expansion.Agrees.session (context : Context) (s : Session) :
    l.session context s = k.session context s := by
  have settings : l.withAgent s = k.withAgent s := by
    rw [withAgent, withAgent, h.agentOf]
  rw [Expansion.session, Expansion.session, settings]

private theorem Statement.withName_agrees (s : Statement) : s.withName l = s.withName k := by
  have name : l.freshName = k.freshName := by
    simp only [Expansion.freshName, h.fresh]
  cases s with
  | action a =>
    cases a with
    | session t => rw [withName, withName, name]
    | pipe | doBlock | invoke => rfl
  | _ => rfl

mutual

private theorem Statement.canonical_agrees (context : Context) :
    (s : Statement) → s.canonical l context = s.canonical k context
  | .comment _ | .importSkill _ | .agent _ | .throw _ => rfl
  | .block ⟨_, _, body, _⟩ => by
    simp only [Statement.canonical, canonicalBody_agrees _ body]
  | .binding _ ⟨_, value, _⟩ => by simp only [Statement.canonical, value.canonical_agrees]
  | .assignment ⟨_, value, _⟩ => by simp only [Statement.canonical, value.canonical_agrees]
  | .action a => by simp only [Statement.canonical, a.canonical_agrees]
  | .parallel ⟨_, _, _, _, body, _⟩ => by
    simp only [Statement.canonical, canonicalBranches_agrees _ _ body]
  | .repeated ⟨_, _, body, _⟩ => by simp only [Statement.canonical, canonicalBody_agrees _ body]
  | .forEach ⟨_, _, collection, _, _, _, body, _⟩ => by
    simp only [Statement.canonical, collection.canonical_agrees, canonicalBody_agrees _ body]
  | .loop ⟨_, _, _, _, body, _⟩ => by
    simp only [Statement.canonical, canonicalBody_agrees _ body]
  | .attempt ⟨body, handler, cleanup, _⟩ => by
    simp only [Statement.canonical, canonicalBody_agrees _ body, canonicalHandler_agrees _ handler,
      canonicalClause_agrees _ cleanup]
  | .choice ⟨_, options, _⟩ => by
    simp only [Statement.canonical, canonicalOptions_agrees _ options]
  | .conditional ⟨branches, otherwise, _⟩ => by
    simp only [Statement.canonical, canonicalConditions_agrees _ branches,
      canonicalClause_agrees _ otherwise]

private theorem canonicalBody_agrees (context : Context) :
    (body : List Statement) → canonicalBody l context body = canonicalBody k context body
  | [] => rfl
  | s :: body => by
    simp only [canonicalBody, s.canonical_agrees, Statement.withName_agrees h,
      canonicalBody_agrees _ body]

private theorem canonicalBranches_agrees (context : Context) (n : Nat) :
    (body : List Statement) →
      canonicalBranches l context n body = canonicalBranches k context n body
  | [] => rfl
  | s :: body => by
    simp only [canonicalBranches, s.canonical_agrees, canonicalBranches_agrees _ _ body]

private theorem canonicalHandler_agrees (context : Context) :
    (handler : Option Handler) →
      canonicalHandler l context handler = canonicalHandler k context handler
  | none => rfl
  | some ⟨_, body, _⟩ => by simp only [canonicalHandler, canonicalBody_agrees _ body]

private theorem canonicalClause_agrees (context : Context) :
    (clause : Option Body) → canonicalClause l context clause = canonicalClause k context clause
  | none => rfl
  | some ⟨body, _⟩ => by simp only [canonicalClause, canonicalBody_agrees _ body]

private theorem canonicalOptions_agrees (context : Context) :
    (options : List ChoiceOption) →
      canonicalOptions l context options = canonicalOptions k context options
  | [] => rfl
  | ⟨_, body, _⟩ :: options => by
    simp only [canonicalOptions, canonicalBody_agrees _ body, canonicalOptions_agrees _ options]

private theorem canonicalConditions_agrees (context : Context) :
    (branches : List Branch) →
      canonicalConditions l context branches = canonicalConditions k context branches
  | [] => rfl
  | ⟨_, _, body, _⟩ :: branches => by
    simp only [canonicalConditions, canonicalBody_agrees _ body,
      canonicalConditions_agrees _ branches]

private theorem Action.canonical_agrees (context : Context) :
    (a : Action) → a.canonical l context = a.canonical k context
  | .session s => by simp only [Action.canonical, h.session]
  | .pipe ⟨input, operations, _⟩ => by
    simp only [Action.canonical, input.canonical_agrees, canonicalOperations_agrees operations]
  | .doBlock ⟨body, _⟩ => by simp only [Action.canonical, canonicalBody_agrees _ body]
  | .invoke ⟨_, args, _⟩ => by simp only [Action.canonical, canonicalValues_agrees _ args]

private theorem canonicalOperations_agrees :
    (operations : List Operation) →
      canonicalOperations l operations = canonicalOperations k operations
  | [] => rfl
  | ⟨_, _, _, body, _⟩ :: operations => by
    simp only [canonicalOperations, canonicalBody_agrees _ body,
      canonicalOperations_agrees operations]

private theorem Expr.canonical_agrees (context : Context) :
    (e : Expr) → e.canonical l context = e.canonical k context
  | .action a => by simp only [Expr.canonical, a.canonical_agrees]
  | .string _ | .number _ | .ident _ | .discretion _ => rfl
  | .array ⟨items, _⟩ => by simp only [Expr.canonical, canonicalValues_agrees _ items]
  | .object ⟨entries, _⟩ => by simp only [Expr.canonical, canonicalEntries_agrees _ entries]

private theorem canonicalValues_agrees (context : Context) :
    (es : List Expr) → canonicalValues l context es = canonicalValues k context es
  | [] => rfl
  | e :: es => by
    simp only [canonicalValues, e.canonical_agrees, canonicalValues_agrees _ es]

private theorem canonicalEntries_agrees (context : Context) :
    (entries : List Entry) →
      canonicalEntries l context entries = canonicalEntries k context entries
  | [] => rfl
  | ⟨_, some value⟩ :: entries => by
    simp only [canonicalEntries, value.canonical_agrees, canonicalEntries_agrees _ entries]
  | ⟨_, none⟩ :: entries => by
    simp only [canonicalEntries, canonicalEntries_agrees _ entries]

end

end

/-! ## Agents passed over -/

/-- An agent takes no name and hands on the context. -/
theorem canonicalBody_withoutAgents (k : Expansion) (context : Context) (body : List Statement) :
    Commutes bodyWithoutAgents (canonicalBody k context body)
      (canonicalBody k context (bodyWithoutAgents body)) := by
  induction body generalizing context with
  | nil => exact .pure rfl
  | cons s body ih =>
    cases defined : s.agent? with
    | some a =>
      obtain rfl := Statement.eq_of_agent? defined
      exact ih context
    | none =>
      rw [bodyWithoutAgents_cons defined]
      refine Commutes.bind_of (f := id) (fun _ ↦ rfl) (s.canonical_agent? k context) fun t ht ↦ ?_
      refine Commutes.bind_of (f := id) (fun _ ↦ rfl) (t.withName_agent? k) fun u hu ↦ ?_
      refine Commutes.bind (ih _) fun rest ↦ .pure ?_
      exact (bodyWithoutAgents_cons (hu.trans (ht.trans defined)) rest).symm

/-- Without comments and without agents, in one order or the other. -/
theorem bodyWithoutAgents_withoutComments (body : List Statement) :
    bodyWithoutAgents (bodyWithoutComments body) = bodyWithoutComments
    (bodyWithoutAgents body) := by
  induction body with
  | nil => rfl
  | cons s body ih =>
    cases defined : s.agent? with
    | some a =>
      obtain rfl := Statement.eq_of_agent? defined
      exact ih
    | none =>
      rw [bodyWithoutAgents_cons defined]
      cases comment : s.isComment with
      | true => rw [bodyWithoutComments_comment comment, bodyWithoutComments_comment comment, ih]
      | false =>
        have other : s.withoutComments.agent? = none := by
          cases s <;> first | rfl | cases defined
        rw [bodyWithoutComments_cons comment, bodyWithoutComments_cons comment,
          bodyWithoutAgents_cons other, ih]

/-! ## Names in use -/

private theorem flatMap_boundNames (inside : Visit → Bool) (body : List Statement) :
    (bodyVisits inside body).flatMap Visit.boundNames = body.flatMap fun s ↦
      (Visit.opened inside (.statement s) (s.visits inside)).flatMap Visit.boundNames := by
  induction body with
  | nil => rfl
  | cons s body ih =>
    rw [bodyVisits, List.flatMap_append, List.flatMap_cons, List.flatMap_cons, ih]
    rfl

private theorem leastFree_congr {used used' : List String}
    (same : ∀ name, used'.contains name = used.contains name) (bound start : Nat) :
    leastFree used' bound start = leastFree used bound start := by
  induction bound generalizing start with
  | zero => rfl
  | succ bound ih => rw [leastFree, leastFree, same, ih]

/-- The order of the names in use does not matter for a fresh one. -/
theorem freshIndex_of_perm {used used' : List String} (h : used'.Perm used) (start : Nat) :
    freshIndex used' start = freshIndex used start := by
  rw [freshIndex, freshIndex, h.length_eq]
  exact leastFree_congr (fun _ ↦ h.contains_eq) _ start

/-! ## Moved agents -/

/-- The agents of the top level are among those that a program defines. -/
theorem agents_sublist (body : List Statement) :
    ((body.filterMap Statement.agent?).map AgentOf.name).Sublist
      ((bodyDefinitions body).filterMap Definition.agent?) := by
  induction body with
  | nil => exact .slnil
  | cons s body ih =>
    rw [bodyDefinitions_cons, List.filterMap_append]
    cases defined : s.agent? with
    | some a =>
      obtain rfl := Statement.eq_of_agent? defined
      exact ih.cons_cons a.name
    | none =>
      rw [List.filterMap_cons_none defined]
      exact ih.trans (List.sublist_append_right _ _)

namespace Program.MovesAgents

variable {p q : Program} (moved : p.MovesAgents q)
include moved

private theorem perm_boundNames : q.boundNames.Perm p.boundNames := by
  rw [boundNames, boundNames, flatMap_boundNames, flatMap_boundNames]
  exact (moved.perm_statements.flatMap_right _).map _

/-- Expansion knows the same agents wherever they stand, if no agent is defined twice. -/
theorem agrees (distinct : Distinct (Definitions.ofProgram p).agents) :
    (Expansion.ofProgram p).Agrees (Expansion.ofProgram q) where
  agentOf s := by
    rw [Definitions.ofProgram_eq, Distinct] at distinct
    have apart := ((agents_sublist p.statements).map Located.val).nodup distinct
    rw [List.map_map] at apart
    rw [Expansion.agentOf?, Expansion.agentOf?, Expansion.ofProgram_agents,
      Expansion.ofProgram_agents]
    exact congrArg _ (funext fun name ↦ (find?_of_perm moved.agents.symm apart name.val).symm)
  fresh := freshIndex_of_perm moved.perm_boundNames

private theorem withoutComments : p.withoutComments.MovesAgents q.withoutComments where
  agents := by
    rw [← Expansion.ofProgram_agents, ← Expansion.ofProgram_agents,
      Expansion.agents_withoutComments, Expansion.agents_withoutComments,
      Expansion.ofProgram_agents, Expansion.ofProgram_agents]
    exact moved.agents
  others := by
    change bodyWithoutAgents (bodyWithoutComments q.statements)
      = bodyWithoutAgents (bodyWithoutComments p.statements)
    rw [bodyWithoutAgents_withoutComments, bodyWithoutAgents_withoutComments, moved.others]
  comments := .nil

/-- Moving agents and bringing a program into canonical form may change places. -/
theorem canonical (distinct : Distinct (Definitions.ofProgram p).agents) :
    p.canonical.MovesAgents q.canonical where
  agents := by
    have unmoved := canonicalBody_agents (.ofProgram p) .empty p.statements 0
    have relocated := canonicalBody_agents (.ofProgram q) .empty q.statements 0
    rw [Program.canonical, Program.canonical, unmoved, relocated]
    exact moved.agents
  others := by
    have unmoved := canonicalBody_withoutAgents (.ofProgram p) .empty p.statements 0
    have relocated := canonicalBody_withoutAgents (.ofProgram q) .empty q.statements 0
    rw [canonicalBody_agrees (moved.agrees distinct), moved.others, unmoved] at relocated
    exact (congrArg Prod.fst relocated).symm
  comments := moved.comments

end Program.MovesAgents

/-- Agents may stand anywhere after the imports. If agents of a valid program are moved, the same is
found about the program, up to order. Whatever the options, it is compiled to a program with the
same other statements in the same order, in which the same agents are moved. -/
theorem program_movesAgents {p q : Program} (moved : p.MovesAgents q)
    (after : AgentsFollowImports q.statements) {o : ValidatorOptions}
    (valid : (validate p o).isValid = true) (e e' : Enumeration) :
    (validate q o e').Similar (validate p o e) ∧ p.canonical.MovesAgents q.canonical
      ∧ ∀ (options : CompileOptions) (c : Compiled), compile p options = .ok c →
          ∃ c', compile q options = .ok c' ∧ c.program.MovesAgents c'.program := by
  have canonical := moved.canonical ((validate_isValid_iff p o).1 valid).agents
  refine ⟨moved.similar after valid e e', canonical, fun options c compiled ↦ ?_⟩
  rw [compile] at compiled ⊢
  split at compiled
  · cases compiled
  · cases compiled
    refine ⟨_, rfl, ?_⟩
    change ((if options.stripComments then p.withoutComments else p).canonical).MovesAgents
      (if options.stripComments then q.withoutComments else q).canonical
    split
    · rw [Program.withoutComments_canonical, Program.withoutComments_canonical]
      exact canonical.withoutComments
    · exact canonical

/-- An agent moved in front of the session that it is for, behind an import. -/
theorem program_movesAgents_helper :
    let p := (parse ("import \"pdf\" from \"tools\"\nsession: helper\nagent helper:\n"
      ++ "  model: haiku\nsession \"Check\"\n")).program
    (validate p {}).isValid = true
      ∧ ∃ skill first helper last, p.statements = [skill, first, helper, last]
        ∧ helper.agent?.isSome = true ∧ ∃ q : Program, q.statements = [skill, helper, first, last]
          ∧ p.MovesAgents q ∧ AgentsFollowImports q.statements
          ∧ (validate q {}).Similar (validate p {}) ∧ p.canonical.MovesAgents q.canonical
          ∧ ∀ (options : CompileOptions) (c : Compiled), compile p options = .ok c →
              ∃ c', compile q options = .ok c' ∧ c.program.MovesAgents c'.program := by
  intro p
  have valid : (validate p {}).isValid = true := by decide +kernel
  have agents : p.statements.map (·.agent?.isSome) = [false, false, true, false] := by
    decide +kernel
  have imports : p.statements.map Statement.isImport = [true, false, false, false] := by
    decide +kernel
  refine ⟨valid, ?_⟩
  match statements : p.statements with
  | [skill, first, helper, last] =>
    rw [statements] at agents imports
    simp only [List.map_cons, List.map_nil, List.cons.injEq, and_true, Option.isSome_eq_false_iff,
      Option.isNone_iff_eq_none] at agents imports
    obtain ⟨skillPlain, firstPlain, isAgent, lastPlain⟩ := agents
    obtain ⟨a, defined⟩ := Option.isSome_iff_exists.1 isAgent
    obtain rfl := Statement.eq_of_agent? defined
    let q : Program := { p with statements := [skill, .agent a, first, last] }
    have moved : p.MovesAgents q := by
      refine ⟨.of_eq ?_, ?_, .refl _⟩
      · rw [statements, List.filterMap_cons_none skillPlain, List.filterMap_cons_none skillPlain,
          List.filterMap_cons_none firstPlain]
        exact congrArg (a :: ·) (List.filterMap_cons_none firstPlain)
      · rw [statements, bodyWithoutAgents_cons skillPlain, bodyWithoutAgents_cons skillPlain,
          bodyWithoutAgents_cons firstPlain, bodyWithoutAgents_agent, bodyWithoutAgents_agent,
          bodyWithoutAgents_cons firstPlain]
    have after : AgentsFollowImports q.statements := by
      simp [q, AgentsFollowImports, skillPlain, imports]
    exact ⟨skill, first, .agent a, last, rfl, isAgent, q, rfl, moved, after,
      program_movesAgents moved after valid .declared .declared⟩
  | [] | [_] | [_, _] | [_, _, _] | _ :: _ :: _ :: _ :: _ :: _ =>
    rw [statements] at agents
    simp at agents

end ProseLang
