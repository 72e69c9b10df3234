import Mathlib.Data.List.Basic
import Mathlib.Data.List.Nodup
import ProseLang.Proofs.Canonical.Comments
import ProseLang.Proofs.Canonical.Explicit
import ProseLang.Proofs.Canonical.Hygiene
import ProseLang.Proofs.Program.Visits

/-!
# The settings of agents

After expansion a session of an agent has the settings of the agent where it has none itself.
Sessions are compared place by place with those of the original program (`Program.sessions`), and
the agent of a session is the one that the validator finds, wherever it is defined
(`Program.agentOf?`).

Expansion knows the agents of the top level only. A session whose agent is defined there gets what
it lacks, and one whose agent is defined in a body gets nothing (`compile_agent_settings`,
`compiled_agent_in_body`).
-/

namespace ProseLang

/-! ## Sessions and their agents -/

/-- The session that a part of a program is. -/
def Visit.session? : Visit → Option Session
  | .action (.session s) => some s
  | _ => none

/-- The sessions among parts of a program. -/
def sessionsAmong (vs : List Visit) : List Session := vs.filterMap Visit.session?

/-- Every session of a program, in order. -/
def Program.sessions (p : Program) : List Session := sessionsAmong p.visits

/-- The agents that a program defines at any depth, in order. -/
def Program.agents (p : Program) : List Agent :=
  (bodyVisits Definitions.inside p.statements).filterMap fun
    | .statement (.agent a) => some a
    | _ => none

/-- The definition that the agent of a session stands for, the first of the name. -/
def Program.agentOf? (p : Program) (s : Session) : Option Agent :=
  s.agent.bind fun name ↦ p.agents.find? (·.name.val = name.val)

/-- Whether a session becomes one that also has the settings of an agent which it lacks. -/
structure SessionOf.Inherits (s : Session) (a : Agent) (t : Session) : Prop where
  model : t.model = (s.model <|> a.model)
  skills : t.skills = (s.skills <|> if a.skills.isEmpty then none else some a.skills)
  prompt : t.prompt = (s.prompt <|> a.prompt)

instance (s : Session) (a : Agent) (t : Session) : Decidable (s.Inherits a t) :=
  decidable_of_iff
    (t.model = (s.model <|> a.model)
      ∧ t.skills = (s.skills <|> if a.skills.isEmpty then none else some a.skills)
      ∧ t.prompt = (s.prompt <|> a.prompt))
    ⟨fun ⟨model, skills, prompt⟩ ↦ ⟨model, skills, prompt⟩,
      fun h ↦ ⟨h.model, h.skills, h.prompt⟩⟩

/-- Whether a session becomes one that has no other settings than its own. -/
structure SessionOf.InheritsNothing (s t : Session) : Prop where
  model : t.model = s.model
  skills : t.skills = s.skills
  prompt : t.prompt = s.prompt

/-- The agents that the validator knows are those that a program defines. -/
theorem Program.map_name_agents (p : Program) :
    p.agents.map AgentOf.name = (Definitions.ofProgram p).agents := by
  rw [agents, List.map_filterMap, Definitions.ofProgram]
  congr 1
  funext v
  cases v with
  | statement s => cases s <;> rfl
  | _ => rfl

/-- What expansion knows is known to the validator. -/
theorem Program.mem_agents {p : Program} {a : Agent} (h : .agent a ∈ p.statements) : a ∈ p.agents :=
  List.mem_filterMap.2 ⟨_, statement_mem_bodyVisits h, rfl⟩

/-- The agents that expansion knows are those among the statements of the top level. -/
theorem Expansion.mem_agents_iff {p : Program} {a : Agent} :
    a ∈ (ofProgram p).agents ↔ .agent a ∈ p.statements :=
  ⟨agent_mem_statements, fun h ↦ List.mem_filterMap.2 ⟨_, h, rfl⟩⟩

private theorem Program.sessions_withoutComments (p : Program) :
    p.withoutComments.sessions = p.sessions := by
  have overlooks : Visit.Overlooks (fun _ ↦ true) fun v ↦ v.session?.toList := by
    refine ⟨fun _ ↦ rfl, rfl, fun _ ↦ rfl, fun a ↦ ?_, fun _ _ ↦ rfl, fun _ ↦ rfl, fun _ ↦ rfl,
      fun _ ↦ rfl, fun _ _ ↦ rfl⟩
    cases a <;> rfl
  rw [sessions, sessions, sessionsAmong, sessionsAmong, List.filterMap_eq_flatMap_toList,
    List.filterMap_eq_flatMap_toList]
  exact flatMap_bodyVisits overlooks p.statements

/-! ## Sessions are expanded in place -/

/-- Whether a session of a known agent is expanded. Its name does not matter. -/
structure Expansion.Expands (k : Expansion) (K : Knowledge) (s t : Session) : Prop where
  expanded : ∃ context name, t = { k.session context s with name }
  known : ∀ name, s.agent = some name → K.definitions.hasAgent name.val = true

private theorem Expansion.Expands.rename {k : Expansion} {K : Knowledge} {s t : Session}
    (h : k.Expands K s t) (name : Option Ident) : k.Expands K s { t with name } := by
  obtain ⟨⟨context, other, rfl⟩, known⟩ := h
  exact ⟨⟨context, name, rfl⟩, known⟩

/-- Whether the sessions among parts of a program are, place by place, those among others,
expanded. -/
def Expansion.Matches (k : Expansion) (K : Knowledge) (vs vs' : List Visit) : Prop :=
  Corresponds (k.Expands K) (sessionsAmong vs) (sessionsAmong vs')

namespace Expansion.Matches

variable {k : Expansion} {K : Knowledge} {v v' : Visit} {vs vs' ws ws' : List Visit}

private theorem nil : k.Matches K [] [] := Corresponds.nil

private theorem append (h : k.Matches K vs vs') (h' : k.Matches K ws ws') :
    k.Matches K (vs ++ ws) (vs' ++ ws') := by
  rw [Matches, sessionsAmong, sessionsAmong, List.filterMap_append, List.filterMap_append]
  exact Corresponds.append h h'

/-- Parts other than sessions. -/
theorem cons (none : v.session? = none) (none' : v'.session? = .none) (h : k.Matches K vs vs') :
    k.Matches K (v :: vs) (v' :: vs') := by
  rwa [Matches, sessionsAmong, sessionsAmong, List.filterMap_cons_none none,
    List.filterMap_cons_none none']

/-- Parts among which there are no sessions. -/
theorem settings (h : ∀ v ∈ vs, v.isSetting = true) : k.Matches K vs vs := by
  have none : sessionsAmong vs = [] := by
    refine List.filterMap_eq_nil_iff.2 fun v member ↦ ?_
    cases v with
    | action => cases h _ member
    | _ => rfl
  rw [Matches, none]
  exact Corresponds.nil

/-- A session without other settings than those that sessions have. -/
theorem session {s t : Session} (h : k.Expands K s t) (plain : s.properties = []) :
    k.Matches K (.action (.session s) :: (Action.session s).visits fun _ ↦ true)
      (.action (.session t) :: (Action.session t).visits fun _ ↦ true) := by
  have alone (x : Session) (none : x.properties = []) :
      sessionsAmong (.action (.session x) :: (Action.session x).visits fun _ ↦ true) = [x] := by
    rcases x with ⟨name, prompt, agent, model, skills, context, retry, backoff, properties⟩
    obtain rfl : properties = [] := none
    cases prompt <;> rfl
  have plain' : t.properties = [] := by
    obtain ⟨context, name, rfl⟩ := h.expanded
    rw [← plain, Expansion.session, withAgent]
    split <;> rfl
  rw [Matches, alone s plain, alone t plain']
  exact .singleton h

/-- The name of a session does not matter. -/
theorem rename {x : Session} (name : Option Ident)
    (h : k.Matches K vs ((Statement.action (.session x)).visits fun _ ↦ true)) :
    k.Matches K vs ((Statement.action (.session { x with name })).visits fun _ ↦ true) := by
  rw [Matches] at h ⊢
  change Corresponds _ _ (x :: sessionsAmong ((Action.session x).visits fun _ ↦ true)) at h
  change Corresponds _ _ ({ x with name } :: sessionsAmong ((Action.session x).visits fun _ ↦ true))
  cases sessions : sessionsAmong vs with
  | nil =>
    rw [sessions] at h
    exact absurd h.length (by simp)
  | cons s rest =>
    rw [sessions] at h
    obtain ⟨here, later⟩ := List.forall_mem_cons.1 h.each
    exact ⟨h.length, List.forall_mem_cons.2 ⟨here.rename name, later⟩⟩

/-- The statements of a sequence, one after the other. -/
theorem body {s t : Statement} {ss ts : List Statement}
    (first : k.Matches K (s.visits fun _ ↦ true) (t.visits fun _ ↦ true))
    (rest : k.Matches K (bodyVisits (fun _ ↦ true) ss) (bodyVisits (fun _ ↦ true) ts)) :
    k.Matches K (bodyVisits (fun _ ↦ true) (s :: ss)) (bodyVisits (fun _ ↦ true) (t :: ts)) :=
  .append (.cons rfl rfl first) (.cons rfl rfl rest)

end Expansion.Matches

section

open Expansion (Matches)

variable {k : Expansion} {K : Knowledge}

mutual

private theorem Statement.canonical_matches (context : Context) {p : Place} {Γ : Env} :
    (s : Statement) → s.Valid K p Γ →
      Yields (fun t ↦ k.Matches K (s.visits fun _ ↦ true) (t.visits fun _ ↦ true))
        (s.canonical k context)
  | .comment _, _ => .pure .nil
  | .importSkill _, _ => .pure (.cons rfl rfl (.cons rfl rfl .nil))
  | .agent _, valid => .pure (.settings valid.isSetting)
  | .throw _, _ => .pure (.settings Visit.isSetting_strings)
  | .block ⟨_, _, body, _⟩, ⟨_, valid⟩ =>
    .bind (canonicalBody_matches .empty body valid) fun _ h ↦ .pure h
  | .binding _ ⟨_, value, _⟩, ⟨valid, _⟩ =>
    .bind (value.canonical_matches context valid) fun _ h ↦ .pure h
  | .assignment ⟨_, value, _⟩, ⟨valid, _⟩ =>
    .bind (value.canonical_matches context valid) fun _ h ↦ .pure h
  | .action a, ⟨valid, _⟩ => .bind (a.canonical_matches context valid) fun _ h ↦ .pure h
  | .parallel ⟨_, _, _, _, body, _⟩, ⟨_, valid⟩ =>
    .bind (canonicalBranches_matches context 0 body valid) fun _ h ↦ .pure h
  | .repeated ⟨_, _, body, _⟩, valid =>
    .bind (canonicalBody_matches context body valid) fun _ h ↦ .pure h
  | .forEach ⟨_, _, collection, _, _, _, body, _⟩, ⟨valid, _, inner⟩ =>
    .bind (collection.canonical_matches context valid) fun _ first ↦
      .bind (canonicalBody_matches context body inner) fun _ h ↦ .pure (first.append h)
  | .loop ⟨condition, _, _, _, body, _⟩, valid => by
    have asked : ∀ v ∈ (condition.map fun c ↦ Visit.discretion c.discretion).toList,
        v.isSetting = true := by
      cases condition with
      | none => nofun
      | some c => exact List.forall_mem_singleton.2 rfl
    exact .bind (canonicalBody_matches context body valid) fun _ h ↦
      .pure ((Matches.settings asked).append h)
  | .attempt ⟨body, handler, cleanup, _⟩, ⟨valid, handled, cleaned⟩ =>
    .bind (canonicalBody_matches context body valid) fun _ hb ↦
      .bind (canonicalHandler_matches context handler handled) fun _ hh ↦
        .bind (canonicalClause_matches context cleanup cleaned) fun _ hc ↦
          .pure ((hb.append hh).append hc)
  | .choice ⟨_, options, _⟩, valid =>
    .bind (canonicalOptions_matches context options valid) fun _ h ↦ .pure (.cons rfl rfl h)
  | .conditional ⟨branches, otherwise, _⟩, ⟨valid, rest⟩ =>
    .bind (canonicalConditions_matches context branches valid) fun _ hb ↦
      .bind (canonicalClause_matches context otherwise rest) fun _ ho ↦ .pure (hb.append ho)

/-- The sessions of a sequence are expanded in place. -/
theorem canonicalBody_matches (context : Context) {p : Place} {Γ : Env} :
    (body : List Statement) → BodyValid K p Γ body →
      Yields (fun body' ↦ k.Matches K (bodyVisits (fun _ ↦ true) body)
          (bodyVisits (fun _ ↦ true) body'))
        (canonicalBody k context body)
  | [], _ => .pure .nil
  | s :: body, ⟨valid, rest⟩ => by
    refine .bind (s.canonical_matches context valid) fun t first ↦ ?_
    have named : Yields (fun u ↦ k.Matches K (s.visits fun _ ↦ true) (u.visits fun _ ↦ true))
        (t.withName k) := by
      refine t.withName_yields
        (P := fun u ↦ k.Matches K (s.visits fun _ ↦ true) (u.visits fun _ ↦ true)) first ?_
      rintro x name rfl - - -
      exact first.rename (some name)
    refine .bind named fun u first' ↦ ?_
    exact .bind (canonicalBody_matches _ body rest) fun _ h ↦ .pure (.body first' h)

private theorem canonicalBranches_matches (context : Context) {p : Place} {Γ : Env} (i : Nat) :
    (body : List Statement) → BodyValid K p Γ body →
      Yields (fun body' ↦ k.Matches K (bodyVisits (fun _ ↦ true) body)
          (bodyVisits (fun _ ↦ true) body'))
        (canonicalBranches k context i body)
  | [], _ => .pure .nil
  | s :: body, ⟨valid, rest⟩ => by
    refine .bind (s.canonical_matches context valid) fun t first ↦ ?_
    split
    · have stands : k.Matches K (s.visits fun _ ↦ true) ((t.asBranch i).visits fun _ ↦ true) := by
        apply t.asBranch_cases
          (P := fun u ↦ k.Matches K (s.visits fun _ ↦ true) (u.visits fun _ ↦ true)) first
        rintro a rfl -
        exact first
      exact .bind (canonicalBranches_matches context (i + 1) body rest) fun _ h ↦
        .pure (.body stands h)
    · exact .bind (canonicalBranches_matches context i body rest) fun _ h ↦ .pure (.body first h)

private theorem canonicalHandler_matches (context : Context) {p : Place} {Γ : Env} :
    (handler : Option Handler) → HandlerValid K p Γ handler →
      Yields (fun handler' ↦ k.Matches K (handlerVisits (fun _ ↦ true) handler)
          (handlerVisits (fun _ ↦ true) handler'))
        (canonicalHandler k context handler)
  | none, _ => .pure .nil
  | some ⟨_, body, _⟩, valid => .bind (canonicalBody_matches context body valid) fun _ h ↦ .pure h

private theorem canonicalClause_matches (context : Context) {p : Place} {Γ : Env} :
    (clause : Option Body) → ClauseValid K p Γ clause →
      Yields (fun clause' ↦ k.Matches K (clauseVisits (fun _ ↦ true) clause)
          (clauseVisits (fun _ ↦ true) clause'))
        (canonicalClause k context clause)
  | none, _ => .pure .nil
  | some ⟨body, _⟩, valid => .bind (canonicalBody_matches context body valid) fun _ h ↦ .pure h

private theorem canonicalOptions_matches (context : Context) {p : Place} {Γ : Env} :
    (options : List ChoiceOption) → OptionsValid K p Γ options →
      Yields (fun options' ↦ k.Matches K (optionVisits (fun _ ↦ true) options)
          (optionVisits (fun _ ↦ true) options'))
        (canonicalOptions k context options)
  | [], _ => .pure .nil
  | ⟨_, body, _⟩ :: options, ⟨_, valid, rest⟩ =>
    .bind (canonicalBody_matches context body valid) fun _ first ↦
      .bind (canonicalOptions_matches context options rest) fun _ h ↦
        .pure (.append (.cons rfl rfl first) h)

private theorem canonicalConditions_matches (context : Context) {p : Place} {Γ : Env} :
    (branches : List Branch) → BranchesValid K p Γ branches →
      Yields (fun branches' ↦ k.Matches K (branchVisits (fun _ ↦ true) branches)
          (branchVisits (fun _ ↦ true) branches'))
        (canonicalConditions k context branches)
  | [], _ => .pure .nil
  | ⟨_, _, body, _⟩ :: branches, ⟨valid, rest⟩ =>
    .bind (canonicalBody_matches context body valid) fun _ first ↦
      .bind (canonicalConditions_matches context branches rest) fun _ h ↦
        .pure (.append (.cons rfl rfl first) h)

private theorem Action.canonical_matches (context : Context) {p : Place} {Γ : Env} :
    (a : Action) → a.Valid K p Γ →
      Yields (fun b ↦ k.Matches K (.action a :: a.visits fun _ ↦ true)
          (.action b :: b.visits fun _ ↦ true))
        (a.canonical k context)
  | .session _, valid => .pure (.session ⟨⟨context, _, rfl⟩, valid.agent⟩ valid.properties)
  | .pipe ⟨input, operations, _⟩, ⟨valid, rest⟩ =>
    .bind (input.canonical_matches context valid) fun _ first ↦
      .bind (canonicalOperations_matches operations rest) fun _ h ↦
        .pure (.cons rfl rfl (first.append h))
  | .doBlock ⟨body, _⟩, valid =>
    .bind (canonicalBody_matches context body valid) fun _ h ↦ .pure (.cons rfl rfl h)
  | .invoke ⟨_, args, _⟩, ⟨valid, _⟩ =>
    .bind (canonicalValues_matches context args valid) fun _ h ↦ .pure (.cons rfl rfl h)

private theorem canonicalOperations_matches {p : Place} {Γ : Env} :
    (operations : List Operation) → OperationsValid K p Γ operations →
      Yields (fun operations' ↦ k.Matches K (operationVisits (fun _ ↦ true) operations)
          (operationVisits (fun _ ↦ true) operations'))
        (canonicalOperations k operations)
  | [], _ => .pure .nil
  | ⟨_, _, _, body, _⟩ :: operations, ⟨_, valid, rest⟩ =>
    .bind (canonicalBody_matches _ body valid) fun _ first ↦
      .bind (canonicalOperations_matches operations rest) fun _ h ↦
        .pure (.append (.cons rfl rfl first) h)

private theorem Expr.canonical_matches (context : Context) {p : Place} {Γ : Env} :
    (e : Expr) → e.Valid K p Γ →
      Yields (fun x ↦ k.Matches K (e.visits fun _ ↦ true) (x.visits fun _ ↦ true))
        (e.canonical k context)
  | .action a, valid => .bind (a.canonical_matches context valid) fun _ h ↦ .pure h
  | .string _, _ | .ident _, _ | .discretion _, _ => .pure (.cons rfl rfl (.cons rfl rfl .nil))
  | .number _, _ => .pure (.cons rfl rfl .nil)
  | .array ⟨items, _⟩, valid =>
    .bind (canonicalValues_matches context items valid) fun _ h ↦ .pure (.cons rfl rfl h)
  | .object ⟨entries, _⟩, valid =>
    .bind (canonicalEntries_matches context entries valid) fun _ h ↦ .pure (.cons rfl rfl h)

private theorem canonicalValues_matches (context : Context) {p : Place} {Γ : Env} :
    (es : List Expr) → ValuesValid K p Γ es →
      Yields (fun es' ↦ k.Matches K (valueVisits (fun _ ↦ true) es)
          (valueVisits (fun _ ↦ true) es'))
        (canonicalValues k context es)
  | [], _ => .pure .nil
  | e :: es, ⟨valid, rest⟩ =>
    .bind (e.canonical_matches context valid) fun _ first ↦
      .bind (canonicalValues_matches context es rest) fun _ h ↦ .pure (first.append h)

private theorem canonicalEntries_matches (context : Context) {p : Place} {Γ : Env} :
    (entries : List Entry) → EntriesValid K p Γ entries →
      Yields (fun entries' ↦ k.Matches K (entryVisits (fun _ ↦ true) entries)
          (entryVisits (fun _ ↦ true) entries'))
        (canonicalEntries k context entries)
  | [], _ => .pure .nil
  | ⟨_, some value⟩ :: entries, ⟨valid, rest⟩ =>
    .bind (value.canonical_matches context valid) fun _ first ↦
      .bind (canonicalEntries_matches context entries rest) fun _ h ↦ .pure (first.append h)
  | ⟨_, none⟩ :: entries, ⟨_, rest⟩ =>
    .bind (canonicalEntries_matches context entries rest) fun _ h ↦ .pure (.cons rfl rfl h)

end

end

/-! ## Settings of agents -/

/-- A session with an agent inherits what it does not set itself. -/
theorem Expansion.session_inherits {k : Expansion} {s : Session} {a : Agent}
    (h : k.agentOf? s = some a) (context : Context) (name : Option Ident) :
    s.Inherits a { k.session context s with name } := by
  rw [session, withAgent, h]
  exact ⟨rfl, rfl, rfl⟩

/-- A session without an agent inherits nothing. -/
theorem Expansion.session_inheritsNothing {k : Expansion} {s : Session} (h : k.agentOf? s = none)
    (context : Context) (name : Option Ident) :
    s.InheritsNothing { k.session context s with name } := by
  rw [session, withAgent, h]
  exact ⟨rfl, rfl, rfl⟩

private theorem Expansion.agent_session (k : Expansion) (s : Session) (context : Context) :
    (k.session context s).agent = s.agent := by
  rw [session, withAgent]
  split <;> rfl

section

variable {p : Program} (distinct : Distinct (Definitions.ofProgram p).agents) {s : Session}
    {a : Agent}

include distinct

/-- Agents of one name are one, if none is defined twice. -/
theorem Program.agent_unique {b : Agent} (ha : a ∈ p.agents) (hb : b ∈ p.agents)
    (same : a.name.val = b.name.val) : a = b := by
  rw [← map_name_agents, Distinct, List.map_map] at distinct
  exact List.inj_on_of_nodup_map distinct ha hb same

/-- Expansion finds the agent that the validator finds, or none. -/
theorem Program.eq_of_agentOf? (found : p.agentOf? s = some a) {b : Agent}
    (known : (Expansion.ofProgram p).agentOf? s = some b) : b = a := by
  obtain ⟨name, written, found⟩ := Option.bind_eq_some_iff.1 found
  rw [Expansion.agentOf?, written, Option.bind_some] at known
  have ha : a.name.val = name.val := by simpa using List.find?_some found
  have hb : b.name.val = name.val := by simpa using List.find?_some known
  exact agent_unique distinct
    (mem_agents (Expansion.agent_mem_statements (List.mem_of_find?_eq_some known)))
    (List.mem_of_find?_eq_some found) (hb.trans ha.symm)

private theorem Program.expansion_agentOf?_of_mem (found : p.agentOf? s = some a)
    (top : .agent a ∈ p.statements) : (Expansion.ofProgram p).agentOf? s = some a := by
  cases known : (Expansion.ofProgram p).agentOf? s with
  | some b => rw [eq_of_agentOf? distinct found known]
  | none =>
    obtain ⟨name, written, found⟩ := Option.bind_eq_some_iff.1 found
    rw [Expansion.agentOf?, written, Option.bind_some, List.find?_eq_none] at known
    exact absurd (List.find?_some found) (known a (Expansion.mem_agents_iff.2 top))

private theorem Program.expansion_agentOf?_of_notMem (found : p.agentOf? s = some a)
    (inner : .agent a ∉ p.statements) : (Expansion.ofProgram p).agentOf? s = none := by
  refine Option.eq_none_iff_forall_not_mem.2 fun b known ↦ ?_
  obtain rfl := eq_of_agentOf? distinct found known
  obtain ⟨name, written, -⟩ := Option.bind_eq_some_iff.1 found
  rw [Option.mem_def, Expansion.agentOf?, written, Option.bind_some] at known
  exact inner (Expansion.agent_mem_statements (List.mem_of_find?_eq_some known))

end

/-- An agent that the validator knows has a definition. -/
theorem Program.isSome_agentOf? {p : Program} {s : Session}
    (known : ∀ name, s.agent = some name → (Definitions.ofProgram p).hasAgent name.val = true)
    (h : s.agent.isSome) : (p.agentOf? s).isSome := by
  obtain ⟨name, written⟩ := Option.isSome_iff_exists.1 h
  have defined := known name written
  rw [Definitions.hasAgent, ← map_name_agents, List.any_map, List.any_eq_true] at defined
  obtain ⟨a, member, same⟩ := defined
  rw [agentOf?, written, Option.bind_some, List.find?_isSome]
  exact ⟨a, member, same⟩

/-- How a session of a program becomes one with the settings of its agent. -/
structure Program.Outfits (p : Program) (s t : Session) : Prop where
  agent : t.agent = s.agent
  known : s.agent.isSome → (p.agentOf? s).isSome
  top : ∀ a, p.agentOf? s = some a → .agent a ∈ p.statements → s.Inherits a t
  inner : ∀ a, p.agentOf? s = some a → .agent a ∉ p.statements → s.InheritsNothing t

/-- In a compiled program every session has the settings of its agent that it lacks, if the agent is
defined at the top level, and no settings besides its own otherwise. The agent of a session has a
definition. -/
theorem compile_agent_settings (p : Program) (options : CompileOptions)
    (validation : ValidatorOptions) (c : Compiled) (valid : (validate p validation).isValid = true)
    (compiled : compile p options = .ok c) :
    Corresponds p.Outfits p.sessions c.program.sessions := by
  rw [validate_isValid_iff] at valid
  have outfits (q : Program) (agents : (Expansion.ofProgram q).agents
    = (Expansion.ofProgram p).agents)
      {s t : Session} (h : (Expansion.ofProgram q).Expands
        { options := validation, definitions := .ofProgram p } s t) :
      p.Outfits s t := by
    obtain ⟨⟨context, name, rfl⟩, known⟩ := h
    have same : (Expansion.ofProgram q).agentOf? s = (Expansion.ofProgram p).agentOf? s := by
      rw [Expansion.agentOf?, agents, ← Expansion.agentOf?]
    refine ⟨Expansion.agent_session _ s context, Program.isSome_agentOf? known, ?_, ?_⟩
    · intro a found top
      exact Expansion.session_inherits
        (same.trans (Program.expansion_agentOf?_of_mem valid.agents found top)) context name
    · intro a found inner
      exact Expansion.session_inheritsNothing
        (same.trans (Program.expansion_agentOf?_of_notMem valid.agents found inner)) context name
  have canonical (q : Program) (hq : q.Valid validation)
      (definitions : Definitions.ofProgram q = .ofProgram p)
      (agents : (Expansion.ofProgram q).agents = (Expansion.ofProgram p).agents) :
      Corresponds p.Outfits q.sessions q.canonical.sessions := by
    have expanded := canonicalBody_matches (k := .ofProgram q) .empty q.statements hq.statements 0
    rw [definitions] at expanded
    exact ⟨expanded.length, fun x member ↦ outfits q agents (expanded.each x member)⟩
  rw [compile_program compiled]
  split
  · rw [← p.sessions_withoutComments]
    exact canonical _ (Program.valid_withoutComments valid)
      (Definitions.ofProgram_withoutComments p)
      (Expansion.agents_withoutComments p)
  · exact canonical p valid rfl rfl

/-- One agent is defined after its session, another one in a body. -/
theorem compile_agent_settings_both :
    let source := "session \"x\": a\nagent a:\n  model: opus\ndo:\n  agent b:\n    model: opus\n  session \"y\": b\n"
    let p := (parse source).program
    (validate p {}).isValid = true
      ∧ ∃ c, compile p {} = .ok c ∧ Corresponds p.Outfits p.sessions c.program.sessions := by
  intro source p
  have valid : (validate p {}).isValid = true := by decide +kernel
  exact ⟨valid, _, rfl, compile_agent_settings p {} {} _ valid rfl⟩

/-- A session does not get the settings of an agent that is defined in a body, although the
validator finds it. -/
theorem compiled_agent_in_body :
    let source := "do:\n  agent a:\n    model: opus\n  session \"x\": a\n"
    let p := (parse source).program
    (parse source).hasErrors = false ∧ (validate p {}).isValid = true
      ∧ ∃ c, compile p {} = .ok c
        ∧ ¬ Corresponds (fun s t ↦ ∀ a ∈ p.agentOf? s, s.Inherits a t) p.sessions
          c.program.sessions :=
  ⟨by decide +kernel, by decide +kernel, _, rfl, fun h ↦ absurd h.each (by decide +kernel)⟩

end ProseLang
