import ProseLang.Proofs.Grammar.Spans
import ProseLang.Proofs.Grammar.Surroundings
import ProseLang.Proofs.Grammar.Written

/-!
# Reading what sessions and agents are written with

`Parser.sessionText` and `Parser.agentText` read what is written and build nothing. Whatever is read
as a session or as an agent is built from the text at its place (`Parser.session_tells`,
`Parser.agent_tells`). Parallel blocks and loops take their settings from the modifiers in front of
their bodies (`Parser.parallel_header`, `Parser.loop_header`).
-/

namespace ProseLang.Parser

/-- What follows the colon of a session: an agent, properties, or both. -/
def detailsText (g : Nested) (pipes : Bool) : Parser (Option Ident × List Property) := do
  match ← peek with
  | .identifier _ =>
    let agent ← name "an agent name"
    if (← cursor).atBlock then return (some agent, ← propertyBlock g pipes)
    else return (some agent, [])
  | .symbol .leftBrace => return (none, ← inlineProperties g pipes)
  | _ =>
    if (← cursor).atBlock then return (none, ← propertyBlock g pipes)
    else missingBlock .session

/-- What is written for a session. -/
def sessionText (g : Nested) (pipes : Bool) : Parser SessionText := do
  let first ← keyword .session
  let name ← match ← peek with
    | .identifier _ => some <$> name "a session name"
    | _ => pure none
  let prompt ← match ← peek with
    | .string _ => some <$> string "a prompt"
    | _ => pure none
  let modifiers ← modifiers?
  let (agent, properties) ← if ← symbol? .colon then detailsText g pipes else pure (none, [])
  return { name, prompt, modifiers, agent, properties, span := ← spanFrom first }

/-- What is written for the definition of an agent. -/
def agentText (g : Nested) (pipes : Bool) : Parser AgentText := do
  let keyword ← keyword .agent
  let name ← name "an agent name"
  symbol .colon
  if !(← cursor).atBlock then missingBlock .agentDefinition
  let properties ← propertyBlock g pipes
  return { keyword, name, properties, span := ← spanFrom keyword }

/-- The reserved word and the modifiers of a parallel block. -/
def parallelHeader : Parser (Span × List Modifier) := do
  let first ← keyword .parallel
  return (first, ← modifiers?)

/-- The reserved word and the modifiers of a loop. -/
def loopHeader : Parser (Span × List Modifier) := do
  let first ← keyword .loop
  let _ ← loopCondition?
  let _ ← asBinding?
  return (first, ← modifiers?)

/-! ## What is read was written -/

/-- Whether wherever a parser gives something, another one stops at the same place and gives what
that is made from. -/
def Tells {α τ : Type} (R : τ → α → Prop) (p : Parser α) (q : Parser τ) : Prop :=
  ∀ c x d, p c = (.ok x, d) → ∃ t, q c = (.ok t, d) ∧ R t x

namespace Tells

variable {α β τ σ : Type} {R : τ → α → Prop} {S : σ → β → Prop}

private theorem pure {t : τ} {x : α} (h : R t x) : Tells R (pure x) (pure t) := by
  intro c y d run
  cases run
  exact ⟨t, rfl, h⟩

private theorem error {q : Parser τ} {p : Parser α} (h : ∀ c x d, p c ≠ (.ok x, d)) : Tells R p q :=
  fun c x d run ↦ absurd run (h c x d)

private theorem bind {p : Parser α} {q : Parser τ} {k : α → Parser β} {l : τ → Parser σ}
    (h : Tells R p q) (hk : ∀ t x, R t x → Tells S (k x) (l t)) : Tells S (p >>= k) (q >>= l) := by
  intro c y d run
  obtain ⟨x, a, first, rest⟩ := bind_eq_ok run
  obtain ⟨t, told, made⟩ := h c x a first
  obtain ⟨s, told', made'⟩ := hk t x made a y d rest
  exact ⟨s, (bind_apply told).trans told', made'⟩

/-- A part that both have in common. -/
theorem both {p : Parser α} {k : α → Parser β} {l : α → Parser σ} (hk : ∀ x, Tells S (k x) (l x)) :
    Tells S (p >>= k) (p >>= l) := by
  intro c y d run
  obtain ⟨x, a, first, rest⟩ := bind_eq_ok run
  obtain ⟨s, told, made⟩ := hk x a y d rest
  exact ⟨s, (bind_apply first).trans told, made⟩

/-- A step that builds something. -/
theorem build {r : Except ParseError α} {k : α → Parser β} {q : Parser σ}
    (hk : ∀ x, r = .ok x → Tells S (k x) q) : Tells S (liftM r >>= k) q := by
  intro c y d run
  obtain ⟨x, a, first, rest⟩ := bind_eq_ok run
  obtain ⟨made, rfl⟩ := Prod.mk.inj first
  exact hk x made c y d rest

/-- What is built with the properties that are read. -/
theorem properties {s : Session} {p : Parser (List Property)} (agent : Option Ident) :
    Tells (fun t s' ↦ (s.withShorthand t.1).withProperties t.2 = .ok s')
      (do (s.withShorthand agent).withProperties (← p)) (do return (agent, ← p)) := by
  refine .both fun ps c s' d run ↦ ?_
  obtain ⟨made, rfl⟩ := Prod.mk.inj run
  exact ⟨(agent, ps), rfl, made⟩

end Tells

variable (g : Nested) (pipes : Bool)

private theorem sessionDetails_tells (s : Session) :
    Tells (fun t s' ↦ (s.withShorthand t.1).withProperties t.2 = .ok s')
      (sessionDetails g pipes s) (detailsText g pipes) := by
  refine .both fun kind ↦ ?_
  have block : Tells (fun t s' ↦ (s.withShorthand t.1).withProperties t.2 = .ok s')
      (do if (← cursor).atBlock then s.withProperties (← propertyBlock g pipes)
          else missingBlock .session)
      (do if (← cursor).atBlock then return (none, ← propertyBlock g pipes)
          else missingBlock .session) := by
    refine .both fun c ↦ ?_
    split
    · exact .properties none
    · exact .error fun _ _ _ ↦ nofun
  cases kind with
  | identifier _ =>
    refine .both fun agent ↦ .both fun c ↦ ?_
    split
    · exact .properties (some agent)
    · exact .pure rfl
  | symbol mark =>
    cases mark with
    | leftBrace => exact .properties none
    | _ => exact block
  | _ => exact block

/-- A name that may be there or not. -/
theorem name_optional_tells {α τ : Type} {R : τ → α → Prop} {role : String} {kind : TokenKind}
    {k : Option Ident → Parser α} {l : Option Ident → Parser τ} (h : ∀ x, Tells R (k x) (l x)) :
    Tells R
      (match kind with
        | .identifier _ => some <$> name role >>= k
        | _ => pure none >>= k)
      (match kind with
        | .identifier _ => some <$> name role >>= l
        | _ => pure none >>= l) := by
  split <;> exact .both h

/-- A string that may be there or not. -/
theorem string_optional_tells {α τ : Type} {R : τ → α → Prop} {role : String} {kind : TokenKind}
    {k : Option StringLit → Parser α} {l : Option StringLit → Parser τ}
    (h : ∀ x, Tells R (k x) (l x)) :
    Tells R
      (match kind with
        | .string _ => some <$> string role >>= k
        | _ => pure none >>= k)
      (match kind with
        | .string _ => some <$> string role >>= l
        | _ => pure none >>= l) := by
  split <;> exact .both h

/-- What is read as a session is built from what is written at its place. -/
theorem session_tells :
    Tells (fun (text : SessionText) s ↦ text.build = .ok s) (session g pipes)
      (sessionText g pipes) := by
  refine .both fun first ↦ .both fun kind ↦ name_optional_tells fun name ↦ ?_
  refine .both fun kind ↦ string_optional_tells fun prompt ↦ .both fun modifiers ↦ ?_
  refine .build fun modified hmodified ↦ .both fun colon ↦ ?_
  have details {p : Parser Session} {q : Parser (Option Ident × List Property)}
      (h : Tells (fun t s' ↦ (modified.withShorthand t.1).withProperties t.2 = .ok s') p q) :
      Tells (fun (text : SessionText) s ↦ text.build = .ok s)
        (do let s ← p; return { s with span := ← spanFrom first })
        (do let (agent, properties) ← q
            return { name, prompt, modifiers, agent, properties, span := ← spanFrom first }) := by
    refine h.bind fun t s built ↦ .both fun span ↦ .pure ?_
    simp only [SessionText.build, hmodified]
    exact congrArg (fun r ↦ r >>= fun s ↦ pure { s with span }) built
  split
  · exact details (sessionDetails_tells g pipes modified)
  · exact details (.pure rfl)

/-- What is read as the definition of an agent is built from what is written at its place. -/
theorem agent_tells :
    Tells (fun (text : AgentText) a ↦ text.build = .ok a) (agent g pipes) (agentText g pipes) := by
  refine .both fun keyword ↦ .both fun name ↦ .both fun _ ↦ .both fun c ↦ ?_
  have built {p : Parser Unit} :
      Tells (fun (text : AgentText) a ↦ text.build = .ok a)
        (do
          p
          let a ← AgentOf.withProperties
            { name, model := none, prompt := none, skills := [], permissions := none, properties := [],
              keys := [], span := keyword } (← propertyBlock g pipes)
          return { a with span := ← spanFrom keyword })
        (do
          p
          let properties ← propertyBlock g pipes
          return { keyword, name, properties, span := ← spanFrom keyword }) := by
    refine .both fun _ ↦ .both fun properties ↦ .build fun a ha ↦ .both fun span ↦ .pure ?_
    rw [AgentText.build, ha]
    rfl
  split
  · exact built
  · exact built (p := pure ())

variable {c d : Cursor}

/-- A parallel block has the settings of the modifiers that it starts with. -/
theorem parallel_header {p : Parallel} (h : parallel g pipes c = (.ok (.parallel p), d)) :
    ∃ first ms a, parallelHeader c = (.ok (first, ms), a) ∧ p.span.start = first.start
      ∧ p.TakesLast ms := by
  obtain ⟨first, a, here, h⟩ := bind_eq_ok h
  obtain ⟨loops, a', looks, h⟩ := bind_eq_ok h
  cases looks
  split at h
  · obtain ⟨f, b, -, h⟩ := bind_eq_ok h
    cases h
  · obtain ⟨ms, b, modifiers, h⟩ := bind_eq_ok h
    obtain ⟨q, b', built, h⟩ := bind_eq_ok h
    obtain ⟨_, _, -, h⟩ := bind_eq_ok h
    obtain ⟨body, _, -, h⟩ := bind_eq_ok h
    cases h
    have taken : q.TakesLast ms :=
      ParallelOf.takesLast_withModifiers ⟨rfl, List.forall_mem_nil _, rfl, rfl, rfl⟩
        (Prod.mk.inj built).1
    refine ⟨first, ms, b, ?_, rfl, { taken with }⟩
    exact (bind_apply here).trans ((bind_apply modifiers).trans rfl)

/-- A loop has the settings of the modifiers in front of its body. -/
theorem loop_header {l : Loop} (h : loop g c = (.ok l, d)) :
    ∃ first ms a, loopHeader c = (.ok (first, ms), a) ∧ l.span.start = first.start
      ∧ l.TakesLast ms := by
  obtain ⟨first, a, here, h⟩ := bind_eq_ok h
  obtain ⟨condition, a', condition_read, h⟩ := bind_eq_ok h
  obtain ⟨index, b, index_read, h⟩ := bind_eq_ok h
  obtain ⟨ms, b', modifiers, h⟩ := bind_eq_ok h
  obtain ⟨q, _, built, h⟩ := bind_eq_ok h
  obtain ⟨body, _, -, h⟩ := bind_eq_ok h
  cases h
  have taken : q.TakesLast ms :=
    LoopOf.takesLast_withModifiers ⟨rfl, List.forall_mem_nil _, rfl, rfl⟩ (Prod.mk.inj built).1
  refine ⟨first, ms, b', ?_, rfl, { taken with }⟩
  exact (bind_apply here).trans ((bind_apply condition_read).trans
    ((bind_apply index_read).trans ((bind_apply modifiers).trans rfl)))

end ProseLang.Parser
