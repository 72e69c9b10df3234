import ProseLang.Canonical.Compilation
import ProseLang.Grammar.Parsing
import ProseLang.Proofs.Canonical.Comments
import ProseLang.Proofs.Canonical.Settled

/-!
# Expansion is idempotent

Bringing a canonical program into canonical form changes nothing, so compiling what a compilation
gave gives the same program, text and source map (`compile_compiled`).
-/

namespace ProseLang

/-! ## Agents -/

/-- The agent that a statement defines. -/
def Statement.agent? : Statement → Option Agent
  | agent a => some a
  | _ => none

/-- Expansion keeps the definition of an agent. -/
theorem Statement.canonical_agent? (k : Expansion) (context : Context) (s : Statement) :
    Yields (fun t ↦ t.agent? = s.agent?) (s.canonical k context) := by
  intro n
  cases s <;> rfl

/-- The name of a result keeps the definition of an agent. -/
theorem Statement.withName_agent? (k : Expansion) (s : Statement) :
    Yields (fun t ↦ t.agent? = s.agent?) (s.withName k) := by
  cases s with
  | action a =>
    cases a with
    | session t =>
      rw [withName]
      split
      · exact .pure rfl
      · exact .bind (.any _) fun _ _ ↦ .pure rfl
    | pipe | doBlock | invoke => exact .pure rfl
  | _ => exact .pure rfl

/-- The agents that the statements of a sequence define stay the same. -/
theorem canonicalBody_agents (k : Expansion) (context : Context) (body : List Statement) :
    Yields (fun body' ↦ body'.filterMap Statement.agent? = body.filterMap Statement.agent?)
      (canonicalBody k context body) := by
  induction body generalizing context with
  | nil => exact .pure rfl
  | cons s body ih =>
    refine .bind (s.canonical_agent? k context) fun t ht ↦ ?_
    refine .bind (t.withName_agent? k) fun u hu ↦ ?_
    refine .bind (ih _) fun rest hr ↦ .pure ?_
    simp only [List.filterMap_cons, hu, ht, hr]

/-- The agents that expansion knows are those that statements of the top level define. -/
theorem Expansion.ofProgram_agents (p : Program) :
    (ofProgram p).agents = p.statements.filterMap Statement.agent? := by
  simp only [ofProgram]
  congr 1

private theorem Expansion.agents_canonical (p : Program) :
    (ofProgram p.canonical).agents = (ofProgram p).agents := by
  simp only [ofProgram_agents]
  exact canonicalBody_agents _ _ _ 0

/-- A canonical program is in canonical form. -/
theorem Program.canonical_idempotent (p : Program) : p.canonical.canonical = p.canonical := by
  have settled : BodySettled (.ofProgram p) p.canonical.statements :=
    canonicalBody_settled _ rfl _ 0
  have same := canonicalBody_of_settled (Expansion.agents_canonical p) .empty _ settled
  rw [canonical, same]
  rfl

/-! ## Compilation -/

/-- What a compilation gives compiles to itself. -/
theorem compileCanonical_program (p : Program) (options : CompileOptions) :
    (compileCanonical (compileCanonical p options).program options).program
      = (compileCanonical p options).program := by
  simp only [compileCanonical]
  split
  · rw [← p.withoutComments.withoutComments_canonical, p.withoutComments_twice,
      Program.canonical_idempotent]
  · exact p.canonical_idempotent

/-- Expansion changes nothing in a program that it gave, and so compiling what a compilation gave,
with the same options, gives the same program, text and source map. -/
theorem canonical_fixpoint (p : Program) :
    p.canonical.canonical = p.canonical ∧
      ∀ options c, compile p options = .ok c →
        ∃ c', compile c.program options = .ok c' ∧ c'.program = c.program ∧ c'.text = c.text
          ∧ c'.sourceMap = c.sourceMap := by
  refine ⟨p.canonical_idempotent, fun options c h ↦ ?_⟩
  unfold compile at h ⊢
  split at h
  · exact nomatch h
  · next supported =>
    obtain rfl := Except.ok.inj h
    have same := compileCanonical_program p options
    have text : ∀ q, (compileCanonical q options).text
        = ((compileCanonical q options).program.doc options.indentWidth).render := fun _ ↦ rfl
    have map : ∀ q, (compileCanonical q options).sourceMap
        = ((compileCanonical q options).program.doc options.indentWidth).sourceMap := fun _ ↦ rfl
    refine ⟨_, rfl, same, ?_, ?_⟩
    · rw [text, same, text p]
    · rw [map, same, map p]

/-- A parallel block with an unnamed branch gets defaults and a name, once. -/
theorem canonical_fixpoint_parallel :
    let p : Program :=
      { statements := [.parallel ⟨none, none, none, [], [.action (.session {})], .nowhere⟩] }
    let c := compileCanonical p {}
    compile p {} = .ok c ∧
      ∃ c', compile c.program {} = .ok c' ∧ c'.program = c.program ∧ c'.text = c.text
        ∧ c'.sourceMap = c.sourceMap :=
  ⟨rfl, (canonical_fixpoint _).2 {} _ rfl⟩

/-- The tree of a compilation is a fixpoint, but its text need not be readable: an agent with an
empty list of skills is written as a header without a body. -/
theorem compiled_agent_without_skills :
    let source := "agent a:\n  skills: []\nsession \"x\": a\n"
    (parse source).hasErrors = false ∧ (validate (parse source).program {}).isValid = true
      ∧ ∃ c, compile (parse source).program {} = .ok c ∧ (parse c.text).hasErrors = true :=
  ⟨by decide +kernel, by decide +kernel, _, rfl, by decide +kernel⟩

end ProseLang
