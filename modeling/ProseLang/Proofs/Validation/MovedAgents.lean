import ProseLang.Proofs.Canonical.Idempotence
import ProseLang.Proofs.Validation.Order
import ProseLang.Proofs.Validation.Reordering
import ProseLang.Proofs.Validation.Tandem

/-!
# Agents in other places

The check of an agent depends on what the program defines and on nothing that comes before the agent
(`Check.agent_notes`). It has no effect on what follows but that imports are closed. So what is
found about a program in which no import follows an agent is, up to order, what is found about its
definitions and comments, about its agents, and about its other statements alone
(`rawFindings_perm`). All of that stays the same when agents are moved
(`Program.MovesAgents.similar`).
-/

namespace ProseLang

/-- Whether a statement imports a skill. -/
def Statement.isImport : Statement → Bool
  | importSkill _ => true
  | _ => false

/-- Statements without the agents among them. -/
def bodyWithoutAgents (body : List Statement) : List Statement :=
  body.filter fun s ↦ s.agent?.isNone

/-- Whether a program becomes another one by moving agents among the statements of its top level.
The comments in the agents move along. -/
structure Program.MovesAgents (p q : Program) : Prop where
  agents : (q.statements.filterMap Statement.agent?).Perm (p.statements.filterMap Statement.agent?)
  others : bodyWithoutAgents q.statements = bodyWithoutAgents p.statements
  comments : q.comments.Perm p.comments

/-- Whether the agents among some statements come after all imports. -/
def AgentsFollowImports (body : List Statement) : Prop :=
  body.Pairwise fun s t ↦ s.agent?.isSome = true → t.isImport = false

instance (body : List Statement) : Decidable (AgentsFollowImports body) :=
  inferInstanceAs (Decidable (body.Pairwise _))

/-- A statement that defines an agent is the definition. -/
theorem Statement.eq_of_agent? {s : Statement} {a : Agent} (h : s.agent? = some a) :
    s = .agent a := by
  cases s with
  | agent b => exact congrArg _ (Option.some.inj h)
  | _ => cases h

/-- The definition of an agent is left out. -/
@[simp] theorem bodyWithoutAgents_agent (a : Agent) (body : List Statement) :
    bodyWithoutAgents (.agent a :: body) = bodyWithoutAgents body := rfl

/-- Any other statement stays. -/
theorem bodyWithoutAgents_cons {s : Statement} (h : s.agent? = none) (body : List Statement) :
    bodyWithoutAgents (s :: body) = s :: bodyWithoutAgents body := by
  rw [bodyWithoutAgents, List.filter_cons_of_pos (by rw [h]; rfl)]
  rfl

/-- Statements are their agents and the others. -/
theorem perm_agents_append (body : List Statement) :
    body.Perm ((body.filterMap Statement.agent?).map .agent ++ bodyWithoutAgents body) := by
  induction body with
  | nil => exact .nil
  | cons s body ih =>
    cases defined : s.agent? with
    | some a =>
      obtain rfl := Statement.eq_of_agent? defined
      exact ih.cons _
    | none =>
      rw [bodyWithoutAgents_cons defined, List.filterMap_cons_none defined]
      exact (ih.cons s).trans List.perm_middle.symm

/-- Moving agents rearranges the statements. -/
theorem Program.MovesAgents.perm_statements {p q : Program} (moved : p.MovesAgents q) :
    q.statements.Perm p.statements := by
  refine (perm_agents_append _).trans (.trans ?_ (perm_agents_append _).symm)
  rw [moved.others]
  exact (moved.agents.map _).append_right _

/-! ## Where imports are closed -/

/-- A place after the imports. -/
def Place.shut (p : Place) : Place := { p with importsOpen := false }

private theorem Place.shut_past (p : Place) (s : Statement) : p.shut.past s = (p.past s).shut := by
  cases s <;> rfl

namespace Check

variable (k : Knowledge) (p : Place)

mutual

/-- Only imports depend on whether imports are closed. -/
theorem statement_shut :
    (s : Statement) → s.isImport = false → statement k p.shut s = statement k p s
  | .importSkill _, h => nomatch h
  | .comment _, _ | .agent _, _ | .block _, _ | .throw _, _ => rfl
  | .binding _ ⟨_, value, _⟩, _ => by rw [statement, statement, expr_shut value]
  | .assignment ⟨_, value, _⟩, _ => by
    rw [statement, statement, expr_shut value]
    rfl
  | .action a, _ => by
    have same := action_shut a
    cases a with
    | session s => rfl
    | pipe | doBlock | invoke => exact same
  | .parallel ⟨_, _, _, _, _, _⟩, _ => rfl
  | .repeated ⟨_, _, _, _⟩, _ => rfl
  | .forEach ⟨_, _, collection, _, _, _, _, _⟩, _ => by
    rw [statement, statement, expr_shut collection]
    rfl
  | .loop ⟨_, _, _, _, _, _⟩, _ => rfl
  | .attempt ⟨_, handler, cleanup, _⟩, _ => by
    -- bodies start at a place that is shut anyway
    cases handler <;> cases cleanup <;> rfl
  | .choice ⟨_, options, _⟩, _ => by rw [statement, statement, optionBodies_shut options]
  | .conditional ⟨branches, otherwise, _⟩, _ => by
    rw [statement, statement, branchBodies_shut branches]
    cases otherwise <;> rfl

/-- Imports do not matter to the options of a choice. -/
theorem optionBodies_shut :
    (options : List ChoiceOption) → optionBodies k p.shut options = optionBodies k p options
  | [] => rfl
  | ⟨_, _, _⟩ :: options => by
    rw [optionBodies, optionBodies, optionBodies_shut options]
    rfl

/-- Imports do not matter to conditional branches. -/
theorem branchBodies_shut :
    (branches : List Branch) → branchBodies k p.shut branches = branchBodies k p branches
  | [] => rfl
  | ⟨_, _, _, _⟩ :: branches => by
    rw [branchBodies, branchBodies, branchBodies_shut branches]
    rfl

private theorem action_shut : (a : Action) → action k p.shut a = action k p a
  | .session _ | .doBlock _ => rfl
  | .pipe ⟨input, operations, _⟩ => by
    rw [action, action, expr_shut input, operationBodies_shut operations]
  | .invoke ⟨_, args, _⟩ => by rw [action, action, exprs_shut args]

/-- Imports do not matter to pipe operations. -/
theorem operationBodies_shut :
    (operations : List Operation) →
      operationBodies k p.shut operations = operationBodies k p operations
  | [] => rfl
  | ⟨_, _, _, _, _⟩ :: operations => by
    rw [operationBodies, operationBodies, operationBodies_shut operations]
    rfl

private theorem expr_shut : (e : Expr) → expr k p.shut e = expr k p e
  | .action a => by rw [expr, expr, action_shut a]
  | .string _ | .number _ | .discretion _ | .ident _ => rfl
  | .array ⟨items, _⟩ => by rw [expr, expr, exprs_shut items]
  | .object ⟨es, _⟩ => by rw [expr, expr, entries_shut es]

/-- Imports do not matter to values. -/
theorem exprs_shut : (es : List Expr) → exprs k p.shut es = exprs k p es
  | [] => rfl
  | e :: es => by rw [exprs, exprs, expr_shut e, exprs_shut es]

/-- Imports do not matter to the entries of an object. -/
theorem entries_shut : (es : List Entry) → entries k p.shut es = entries k p es
  | [] => rfl
  | ⟨_, some value⟩ :: es => by rw [entries, entries, expr_shut value, entries_shut es]
  | ⟨_, none⟩ :: es => by rw [entries, entries, entries_shut es]

end

/-- Without imports it does not matter whether they are closed. -/
theorem statements_shut (before : List String) :
    (body : List Statement) → (∀ s ∈ body, s.isImport = false) →
      statements k p.shut before body = statements k p before body := by
  intro body none
  induction body generalizing p before with
  | nil => rfl
  | cons s body ih =>
    obtain ⟨first, rest⟩ := List.forall_mem_cons.1 none
    rw [statements, statements, statement_shut k p s first, p.shut_past, ih _ _ rest]

/-! ## Checks that only find something -/

/-- Whether all that a check does is to make some findings. -/
def Notes (c : Check Unit) : Prop :=
  ∃ fs, ∀ σ, (c.run σ).2 = { σ with findings := σ.findings ++ fs }

namespace Notes

private theorem pure : Notes (pure ()) := ⟨[], fun _ ↦ by rw [List.append_nil]; rfl⟩

private theorem seq {c d : Check Unit} : Notes c → Notes d → Notes (do c; d) := by
  rintro ⟨fs, first⟩ ⟨gs, second⟩
  refine ⟨fs ++ gs, fun σ ↦ ?_⟩
  change (d.run (c.run σ).2).2 = _
  rw [second, first, List.append_assoc]

private theorem forM {α : Type} {f : α → Check Unit} (h : ∀ x, Notes (f x)) (xs : List α) :
    Notes (xs.forM f) := by
  induction xs with
  | nil => exact pure
  | cons x xs ih => exact (h x).seq ih

private theorem optionForM {α : Type} {f : α → Check Unit} (h : ∀ x, Notes (f x)) (x : Option α) :
    Notes (x.forM f) := by
  cases x with
  | none => exact pure
  | some x => exact h x

private theorem note (issue : Issue) (span : Span) : Notes (note issue span) := ⟨_, fun _ ↦ rfl⟩

private theorem noteIf (condition : Bool) (issue : Issue) (span : Span) :
    Notes (noteIf condition issue span) := ⟨_, noteIf_run condition issue span⟩

end Notes

private theorem agent_notes (a : Agent) : Notes (agent k a) := by
  have permission (p : Property) : Notes (permission p) := by
    rw [Check.permission]
    split
    · exact .noteIf _ _ _
    · exact .note _ _
  refine .seq (.noteIf _ _ _) (.seq (.optionForM (fun _ ↦ .noteIf _ _ _) _) ?_)
  refine .seq (.forM (fun _ ↦ .noteIf _ _ _) _) ?_
  exact .seq (.forM permission _) (.forM (fun _ ↦ .note _ _) _)

/-- What is found about an agent. -/
def agentFindings (a : Agent) : List Finding := ((agent k a).run ⟨[], []⟩).2.findings

private theorem agent_run (a : Agent) (σ : CheckState) :
    ((agent k a).run σ).2 = { σ with findings := σ.findings ++ agentFindings k a } := by
  obtain ⟨fs, notes⟩ := agent_notes k a
  have found : agentFindings k a = fs := by
    rw [agentFindings, notes]
    rfl
  rw [notes, found]

end Check

/-! ## What is found besides -/

/-- Whether findings are others and some more, up to order. -/
def FindsMore (extra fs gs : List Finding) : Prop := fs.Perm (extra ++ gs)

namespace FindsMore

variable {extra fs gs hs hs' : List Finding}

private theorem append (h : FindsMore extra fs gs) (same : hs.Perm hs') :
    FindsMore extra (fs ++ hs) (gs ++ hs') := by
  rw [FindsMore, ← List.append_assoc]
  exact List.Perm.append h same

private theorem add (h : FindsMore extra fs gs) (hs : List Finding) :
    FindsMore (extra ++ hs) (fs ++ hs) gs := by
  have swapped : (extra ++ gs ++ hs).Perm (extra ++ hs ++ gs) := by
    rw [List.append_assoc, List.append_assoc]
    exact List.perm_append_comm.append_left extra
  exact (h.append_right hs).trans swapped

end FindsMore

/-- Checks with equivalent definitions make the same findings, in whatever order scopes tell their
symbols. -/
theorem Knowledge.relates_more {k l : Knowledge} (options : l.options = k.options)
    (hasAgent : ∀ name, l.definitions.hasAgent name = k.definitions.hasAgent name)
    (hasSkill : ∀ name, l.definitions.hasSkill name = k.definitions.hasSkill name)
    (arity : ∀ name, l.definitions.arity? name = k.definitions.arity? name)
    (extra : List Finding) : Knowledge.Relates (FindsMore extra) (fun _ ↦ True) k l where
  hasAgent := hasAgent
  hasSkill := hasSkill
  arity := arity
  both _ more := more.append (.refl _)
  model _ _ more := by
    rw [options]
    exact more.append (.refl _)
  skill _ _ more := by
    rw [options]
    exact more.append (.refl _)
  unused {_ _ s} _ _ more := by
    refine more.append ?_
    rw [Check.unusedFindings, Check.unusedFindings, options]
    split
    · exact (((k.enumeration.perm s).trans (l.enumeration.perm s).symm).filter _).map _
    · exact .nil

/-- What is found about the agents among some statements. -/
def agentsFindings (k : Knowledge) (body : List Statement) : List Finding :=
  (body.filterMap Statement.agent?).flatMap (Check.agentFindings k)

namespace Check

variable {k l : Knowledge}
  (relates : ∀ extra, Knowledge.Relates (FindsMore extra) (fun _ ↦ True) k l)
include relates

/-- A check of statements finds what a check without their agents does, and what is found about
these. -/
theorem statements_findsMore (p : Place) (before : List String) (body : List Statement)
    (ordered : AgentsFollowImports body) (extra : List Finding) (σ τ : CheckState)
    (related : σ.Related (FindsMore extra) (fun _ ↦ True) τ) :
    ((statements k p before body).run σ).2.Related
      (FindsMore (extra ++ agentsFindings k body)) (fun _ ↦ True)
      ((statements l p before (bodyWithoutAgents body)).run τ).2 := by
  induction body generalizing p before extra σ τ with
  | nil =>
    rw [agentsFindings, List.filterMap_nil, List.flatMap_nil, List.append_nil]
    exact statements_relates (relates extra) p before [] (fun _ hv ↦ absurd hv List.not_mem_nil) σ τ
      related
  | cons s body ih =>
    obtain ⟨first, rest⟩ := List.pairwise_cons.1 ordered
    cases defined : s.agent? with
    | some a =>
      obtain rfl := Statement.eq_of_agent? defined
      -- the agent closes imports, but none follows it
      have closed := statements_shut k p before body fun t ht ↦ first t ht rfl
      have noted : CheckState.Related (FindsMore (extra ++ agentFindings k a)) (fun _ ↦ True)
          ((agent k a).run σ).2 τ := by
        rw [agent_run]
        exact ⟨related.scopes, related.binds, related.findings.add _⟩
      have later := ih p before rest _ _ _ noted
      rw [List.append_assoc, ← closed] at later
      exact later
    | none =>
      have here := statement_relates (relates extra) p s fun _ _ _ _ ↦ trivial
      have all {σ τ : CheckState} (related : σ.Related (FindsMore extra) (fun _ ↦ True) τ) :=
        ih (p.past s) (if s.isExecutable then resultNames s else before) rest extra _ _
          (here σ τ related)
      rw [bodyWithoutAgents_cons defined, agentsFindings, List.filterMap_cons_none defined,
        statements, statements]
      split
      · exact all (Relates.forM Relates.markUsed σ τ related)
      · exact all related

end Check

/-- What is found about statements besides definitions and comments. -/
def statementFindings (k : Knowledge) (body : List Statement) : List Finding :=
  let σ := ((Check.statements k {} [] body).run ⟨[[]], []⟩).2
  σ.findings ++ Check.unusedFindings k (σ.scopes.headD [])

/-- What is found about a program is found about its definitions and comments, about its agents, or
about its other statements alone. -/
theorem rawFindings_perm {p : Program} {o : ValidatorOptions} {e : Enumeration} {k : Knowledge}
    (relates : ∀ extra, Knowledge.Relates (FindsMore extra) (fun _ ↦ True) ⟨o, .ofProgram p, e⟩ k)
    (ordered : AgentsFollowImports p.statements) :
    (rawFindings p o e).Perm (startFindings p o
      ++ agentsFindings ⟨o, .ofProgram p, e⟩ p.statements
      ++ statementFindings k (bodyWithoutAgents p.statements)) := by
  have start : CheckState.Related (FindsMore (startFindings p o)) (fun _ ↦ True)
      ⟨[[]], startFindings p o⟩ ⟨[[]], []⟩ :=
    ⟨rfl, .start, by rw [FindsMore, List.append_nil]⟩
  exact Check.closing_related (relates _)
    (Check.statements_findsMore relates {} [] p.statements ordered _ _ _ start)

/-! ## What moved agents define -/

private theorem bodyDefinitions_eq_flatMap (body : List Statement) :
    bodyDefinitions body = body.flatMap Statement.definitions := by
  induction body with
  | nil => rfl
  | cons s body ih => rw [bodyDefinitions_cons, List.flatMap_cons, ih]

/-- Agents define no block and no skill. -/
theorem bodyDefinitions_withoutAgents {α : Type} {f : Definition → Option α}
    (none : ∀ name, f (.agent name) = none) (body : List Statement) :
    (bodyDefinitions body).filterMap f = (bodyDefinitions (bodyWithoutAgents body)).filterMap
    f := by
  induction body with
  | nil => rfl
  | cons s body ih =>
    rw [bodyDefinitions_cons, List.filterMap_append]
    cases defined : s.agent? with
    | some a =>
      obtain rfl := Statement.eq_of_agent? defined
      have nothing : (Statement.agent a).definitions.filterMap f = [] :=
        List.filterMap_cons_none (none a.name)
      rw [nothing, ih]
      rfl
    | none => rw [bodyWithoutAgents_cons defined, bodyDefinitions_cons, List.filterMap_append, ih]

namespace Program.MovesAgents

variable {p q : Program} (moved : p.MovesAgents q)
include moved

private theorem definedAgents :
    (Definitions.ofProgram q).agents.Perm (Definitions.ofProgram p).agents := by
  have all : (bodyDefinitions q.statements).Perm (bodyDefinitions p.statements) := by
    rw [bodyDefinitions_eq_flatMap, bodyDefinitions_eq_flatMap]
    exact moved.perm_statements.flatMap_right _
  simpa only [Definitions.ofProgram_eq] using all.filterMap _

private theorem definedBlocks : (Definitions.ofProgram q).blocks
    = (Definitions.ofProgram p).blocks := by
  simp only [Definitions.ofProgram_eq]
  rw [bodyDefinitions_withoutAgents (fun _ ↦ rfl), moved.others,
    ← bodyDefinitions_withoutAgents (fun _ ↦ rfl)]

private theorem definedSkills : (Definitions.ofProgram q).skills
    = (Definitions.ofProgram p).skills := by
  simp only [Definitions.ofProgram_eq]
  rw [bodyDefinitions_withoutAgents (fun _ ↦ rfl), moved.others,
    ← bodyDefinitions_withoutAgents (fun _ ↦ rfl)]

/-- Moved agents leave the findings about definitions and comments, if no agent is defined twice. -/
theorem perm_startFindings (distinct : Distinct (Definitions.ofProgram p).agents)
    (o : ValidatorOptions) : (startFindings q o).Perm (startFindings p o) := by
  have apart {names : List Ident} (different : Distinct names) :
      Definitions.repetitions [] names = [] := Definitions.repetitions_eq_nil different
  have defined : (Definitions.ofProgram q).findings = (Definitions.ofProgram p).findings := by
    rw [Definitions.findings, Definitions.findings, apart distinct,
      apart ((Distinct.perm moved.definedAgents).2 distinct), moved.definedBlocks,
      moved.definedSkills]
  rw [startFindings, startFindings, defined]
  refine List.Perm.append_left _ ?_
  split
  · exact moved.comments.filterMap _
  · exact .nil

/-- The same is found about moved agents. -/
theorem perm_agentsFindings (o : ValidatorOptions) (e e' : Enumeration) :
    (agentsFindings ⟨o, .ofProgram q, e'⟩ q.statements).Perm
      (agentsFindings ⟨o, .ofProgram p, e⟩ p.statements) := by
  have skills (name : String) : (Definitions.ofProgram q).hasSkill name
      = (Definitions.ofProgram p).hasSkill name := by
    rw [Definitions.hasSkill, Definitions.hasSkill, moved.definedSkills]
  have each (a : Agent) : Check.agentFindings ⟨o, .ofProgram q, e'⟩ a
      = Check.agentFindings ⟨o, .ofProgram p, e⟩ a := by
    simp only [Check.agentFindings, Check.agent, Check.skills, skills]
    rfl
  rw [agentsFindings, agentsFindings, funext each]
  exact moved.agents.flatMap_right _

/-- What is found about a program does not depend on where its agents stand after the imports. -/
theorem perm_rawFindings (before : AgentsFollowImports p.statements)
    (after : AgentsFollowImports q.statements)
    (distinct : Distinct (Definitions.ofProgram p).agents)
    (o : ValidatorOptions) (e e' : Enumeration) :
    (rawFindings q o e').Perm (rawFindings p o e) := by
  let k : Knowledge := { options := o, definitions := .ofProgram p }
  have unmoved := rawFindings_perm (p := p) (o := o) (e := e) (k := k)
    (Knowledge.relates_more rfl (fun _ ↦ rfl) (fun _ ↦ rfl) fun _ ↦ rfl) before
  have relocated := rawFindings_perm (p := q) (o := o) (e := e') (k := k)
    (Knowledge.relates_more rfl (fun _ ↦ moved.definedAgents.any_eq.symm)
      (fun _ ↦ by rw [Definitions.hasSkill, Definitions.hasSkill, moved.definedSkills])
      fun _ ↦ by rw [Definitions.arity?, Definitions.arity?, moved.definedBlocks]) after
  rw [moved.others] at relocated
  refine relocated.trans (.trans ?_ unmoved.symm)
  exact ((moved.perm_startFindings distinct o).append
    (moved.perm_agentsFindings o e e')).append_right _

end Program.MovesAgents

/-! ## Valid programs -/

private theorem isImport_of_bodyValid {k : Knowledge} {p : Place} {Γ : Env} {body : List Statement}
    (closed : p.importsOpen = false) (valid : BodyValid k p Γ body) :
    ∀ s ∈ body, s.isImport = false := by
  induction body generalizing p Γ with
  | nil => exact fun _ hs ↦ absurd hs List.not_mem_nil
  | cons s body ih =>
    obtain ⟨here, later⟩ := valid
    have closedAfter : (p.past s).importsOpen = false := by
      cases s <;> first | exact closed | rfl
    refine List.forall_mem_cons.2 ⟨?_, ih closedAfter later⟩
    cases s with
    | importSkill i => exact absurd (closed.symm.trans here.1) Bool.noConfusion
    | _ => rfl

/-- In valid statements no import follows an agent. -/
theorem agentsFollowImports_of_bodyValid {k : Knowledge} {p : Place} {Γ : Env}
    {body : List Statement} (valid : BodyValid k p Γ body) : AgentsFollowImports body := by
  induction body generalizing p Γ with
  | nil => exact .nil
  | cons s body ih =>
    obtain ⟨-, later⟩ := valid
    refine List.pairwise_cons.2 ⟨fun t ht defined ↦ ?_, ih later⟩
    obtain ⟨a, defined⟩ := Option.isSome_iff_exists.1 defined
    obtain rfl := Statement.eq_of_agent? defined
    exact isImport_of_bodyValid rfl later t ht

/-- Moved agents change no finding of a valid program, but the order of findings at most. -/
theorem Program.MovesAgents.similar {p q : Program} (moved : p.MovesAgents q)
    (after : AgentsFollowImports q.statements) {o : ValidatorOptions}
    (valid : (validate p o).isValid = true) (e e' : Enumeration) :
    (validate q o e').Similar (validate p o e) := by
  have sound := (validate_isValid_iff p o).1 valid
  have before := agentsFollowImports_of_bodyValid sound.statements
  exact ValidationResult.ofFindings_perm (moved.perm_rawFindings before after sound.agents o e e')

end ProseLang
