import ProseLang.Proofs.Grammar.SettingOutlines

/-!
# Outlines of values

What is read is nested and in order: there is one lemma for each production (`session_traces`,
`primary_traces`, …), over what is known of the parsers of what is nested in it
(`Nested.Outlining`). Whatever a production takes over from another one keeps its place, so the
settings of sessions and agents lie within these too. This module has sessions, agents, bodies,
values and pipes.
-/

namespace ProseLang

open Outline

variable {ts : List Token} {c : Cursor} {g : Nested} {m k n : Nat}

/-- Whether what the parsers of nested constructs give is nested and in order. -/
structure Nested.Outlining (ts : List Token) (g : Nested) : Prop where
  value : ∀ pipes m, Traces ts m (fun n e ↦ e.outline.Fits ts m n) (g.value pipes)
  statement : ∀ pipes m, Sweeps ts m
    (fun n r ↦ Delivered ts (fun ss ↦ Strung ts m n (ss.flatMap Statement.outlines)) r)
    (g.statement pipes)
  properties : ∀ pipes m,
    Traces ts m (fun n ps ↦ Strung ts m n (ps.map PropertyOf.outline)) (g.properties pipes)

namespace Parser

private theorem modifierValue_traces :
    Traces ts m (fun n v ↦ v.outline.Fits ts m n) modifierValue := by
  refine .peek fun c hc hm ↦ ?_
  split
  · exact Traces.map (Q := fun n (v : ModifierValue) ↦ v.outline.Fits ts m n) (string_traces _)
      (fun n s _ hs ↦ hs) c hc hm
  · next digits hk =>
    refine Traces.take_at hc (by rw [hk]; rfl) fun n place ↦ .pure ?_
    exact fits_leaf.2 (hm ▸ place)
  · exact Traces.throwHere c hc hm
  · exact Traces.unexpected _ c hc hm

private theorem modifierValue_starts {v : ModifierValue} {d : Cursor}
    (h : modifierValue c = (.ok v, d)) : v.outline.span = c.current.span := by
  obtain ⟨kind, a, here, rest⟩ := bind_eq_ok h
  cases here
  cases hk : c.current.kind
  case string =>
    rw [hk] at rest
    obtain ⟨s, read, rfl⟩ := map_eq_ok rest
    exact string_eq_ok read
  case number =>
    rw [hk] at rest
    cases rest
    rfl
  all_goals
    rw [hk] at rest
    cases rest

/-- The key of a modifier, if there is one, starts where the modifier does; else nothing is
taken. -/
theorem modifierKey?_traces {α : Type} {P : Nat → α → Prop} {k : Option Ident → Parser α}
    (hc : c.Orderly ts)
    (named : ∀ n x, c.lastEnd.offset ≤ n → x.outline.Fits ts c.lastEnd.offset n →
      x.span = c.current.span → Traces ts n P (k (some x)))
    (bare : TracesAt ts c P (k none)) : TracesAt ts c P (modifierKey? >>= k) := by
  rw [modifierKey?, bind_assoc]
  refine TracesAt.peek ?_
  split
  · rw [bind_assoc]
    refine TracesAt.peekNext ?_
    split
    · exact ⟨hc.refl, hc.anchored_current⟩
    · have key := TracesAt.of_runs (name_traces "a modifier name" c hc rfl) fun _ _ ↦ name_eq_ok
      change TracesAt ts c P ((do
        let key ← name "a modifier name"
        let _ ← take
        return some key) >>= k)
      simp only [bind_assoc, pure_bind]
      refine TracesAt.bind key fun n x hn hx ↦ .take fun n' _ hn' ↦ ?_
      exact named n' x (Nat.le_trans hn hn') (hx.1.mono (Nat.le_refl _) hn') hx.2
  · exact bare

/-- A modifier starts with its key, if it has one, and else with its value. -/
theorem modifier_traces (m : Nat) :
    Traces ts m (fun n x ↦ x.outline.Fits ts m n) (do
      let first := (← cursor).current.span
      let key ← modifierKey?
      let value ← modifierValue
      return ({ key, value, span := ← spanFrom first } : Modifier)) := by
  refine .here fun c hc hm ↦ modifierKey?_traces hc (fun k x hk hx starts ↦ ?_) ?_
  · refine modifierValue_traces.bind fun n v hn hv ↦ .close ?_
    rintro stop rfl ends
    rw [← hm]
    exact .leading hx (congrArg Span.start starts) nofun hn ends (.singleton hv)
  · have value := TracesAt.of_runs (modifierValue_traces c hc hm) fun _ _ ↦ modifierValue_starts
    refine TracesAt.bind value fun n v hn hv ↦ .close ?_
    rintro stop rfl ends
    exact .leading hv.1 (congrArg Span.start hv.2) nofun (Nat.le_refl _) ends .nil

private theorem modifiers_traces :
    Traces ts m (fun n xs ↦ Strung ts m n (xs.map Modifier.outline)) modifiers := by
  refine (symbol_traces _).bind fun k _ hk taken ↦ ?_
  refine (commaList_traces (Joins.strung _) _ (fun m ↦ ?_) k).imp fun n xs _ hxs ↦
    hxs.mono hk (Nat.le_refl n)
  exact (modifier_traces m).imp fun n x _ hx ↦ .singleton hx

/-- Modifiers stand one after the other. -/
theorem modifiers?_traces :
    Traces ts m (fun n xs ↦ Strung ts m n (xs.map Modifier.outline)) modifiers? := by
  refine (atSymbol_traces _).bind fun k b hk _ ↦ ?_
  split
  · exact modifiers_traces.imp fun n xs _ hxs ↦ hxs.mono hk (Nat.le_refl n)
  · exact .pure .nil

/-- Names separated by commas stand in a row. -/
theorem names_traces (close : Punctuation) (role : String) (m : Nat) :
    Traces ts m (fun n xs ↦ Strung ts m n (xs.map Located.outline))
      (commaList close (name role)) :=
  commaList_traces (Joins.strung _) close
    (fun _ ↦ (name_traces role).imp fun _ _ _ h ↦ .singleton h) m

private theorem contextNames_traces (close : Punctuation) {make : List Ident → Context}
    (hmake : ∀ names, (make names).names = names) :
    Traces ts m (fun n c ↦ Strung ts m n (c.names.map Located.outline))
      (contextNames close make) := by
  refine .take fun k _ hk ↦ ?_
  refine (names_traces close _ k).bind fun n names hn hnames ↦ .pure ?_
  split
  · exact .nil
  · rw [hmake]
    exact hnames.mono hk (Nat.le_refl n)

private theorem context_traces :
    Traces ts m (fun n c ↦ Strung ts m n (c.names.map Located.outline)) context := by
  refine .peek fun c hc hm ↦ ?_
  split
  · exact Traces.map (name_traces _) (fun n x _ hx ↦ .singleton hx) c hc hm
  · exact contextNames_traces _ (fun _ ↦ rfl) c hc hm
  · exact contextNames_traces _ (fun _ ↦ rfl) c hc hm
  · exact Traces.unexpected _ c hc hm

private theorem propertyKey_traces :
    Traces ts m (fun n x ↦ x.outline.Fits ts m n) propertyKey := by
  refine .peek fun c hc hm ↦ ?_
  split
  · next word hk =>
    -- the word is taken where the cursor stood before the look ahead
    refine TracesAt.peekNext ?_
    split
    · refine Traces.take_at hc (by rw [hk]; rfl) fun n place ↦ .pure ?_
      exact fits_leaf.2 (hm ▸ place)
    · exact name_traces _ c hc hm
  · exact name_traces _ c hc hm

/-- A name that may be there or not. -/
theorem name_optional_traces {α : Type} {P : Nat → α → Prop} {role : String}
    {k : Option Ident → Parser α} (hc : c.Orderly ts)
    (hk : ∀ n x, c.lastEnd.offset ≤ n →
      Strung ts c.lastEnd.offset n (x.toList.map Located.outline) → Traces ts n P (k x)) :
    TracesAt ts c P (match c.current.kind with
      | .identifier _ => some <$> name role >>= k
      | _ => pure none >>= k) := by
  split
  · exact Traces.bind ((name_traces role).map
      (Q := fun n x ↦ Strung ts c.lastEnd.offset n (x.toList.map Located.outline))
      fun n x _ hx ↦ .singleton hx) hk c hc rfl
  · exact Traces.bind (.pure (x := none)
      (P := fun n x ↦ Strung ts c.lastEnd.offset n (x.toList.map Located.outline)) .nil) hk c hc rfl

/-- A string that may be there or not. -/
theorem string_optional_traces {α : Type} {P : Nat → α → Prop} {role : String}
    {k : Option StringLit → Parser α} (hc : c.Orderly ts)
    (hk : ∀ n x, c.lastEnd.offset ≤ n →
      Strung ts c.lastEnd.offset n (x.toList.map StringLit.outline) → Traces ts n P (k x)) :
    TracesAt ts c P (match c.current.kind with
      | .string _ => some <$> string role >>= k
      | _ => pure none >>= k) := by
  split
  · exact Traces.bind ((string_traces role).map
      (Q := fun n x ↦ Strung ts c.lastEnd.offset n (x.toList.map StringLit.outline))
      fun n x _ hx ↦ .singleton hx) hk c hc rfl
  · exact Traces.bind (.pure (x := none)
      (P := fun n x ↦ Strung ts c.lastEnd.offset n (x.toList.map StringLit.outline)) .nil) hk
        c hc rfl

private theorem statementRound_sweeps (inBlock : Bool) {statement : StatementParser}
    (h : ∀ m, Sweeps ts m (fun n r ↦ Delivered ts
      (fun ss ↦ Strung ts m n (ss.flatMap Statement.outlines)) r) statement) (m : Nat) :
    Sweeps ts m (fun n r ↦ Delivered ts (fun ss ↦ Strung ts m n (ss.flatMap Statement.outlines))
      (r.1, r.2.error?)) (statementRound statement inBlock) := by
  refine .move (fun c hc ↦ hc.skipNewlines) fun k hk ↦ ?_
  refine .here fun c hc hm ↦ ?_
  dsimp only
  split
  · exact .of_sweeps (.pure ⟨.nil, nofun⟩) hc hm
  · split
    · exact .of_sweeps (.pure ⟨.nil, nofun⟩) hc hm
    · exact .of_sweeps (.move (fun c hc ↦ hc.advance) fun _ _ ↦ .pure ⟨.nil, nofun⟩) hc hm
  · have indent := hc.anchored_current
    exact .of_sweeps (.move (fun c hc ↦ hc.recover indent) fun _ _ ↦ .pure ⟨.nil, nofun⟩) hc hm
  · refine Sweeps.bind (h k) (fun n r hn hr ↦ ?_) c hc hm
    rcases r with ⟨read, e | e⟩
    · refine (recovering_sweeps endStatement_traces).bind fun n' _ hn' _ ↦ .pure ⟨?_, nofun⟩
      exact hr.read.mono hk hn'
    · refine .move (fun c hc ↦ hc.recover (hr.error e rfl)) fun n' hn' ↦ .pure ⟨?_, nofun⟩
      exact hr.read.mono hk hn'

/-- Statements stand one after the other when each of them stands where it is read. -/
theorem statements_sweeps (inBlock : Bool) {statement : StatementParser}
    (h : ∀ m, Sweeps ts m (fun n r ↦ Delivered ts
      (fun ss ↦ Strung ts m n (ss.flatMap Statement.outlines)) r) statement) (m : Nat) :
    Sweeps ts m (fun n body ↦ Strung ts m n (body.flatMap Statement.outlines))
      (statements statement inBlock) := by
  intro c hc hm
  obtain ⟨onward, found⟩ :=
    rounds_sweeps (Joins.strungAll _) (statementRound_sweeps inBlock h) m c hc hm
  exact ⟨onward, found.read⟩

section Nested

variable (hg : g.Outlining ts) (pipes : Bool)
include hg

private theorem property_traces (m : Nat) :
    Traces ts m (fun n p ↦ p.outline.Fits ts m n) (property g pipes) := by
  refine propertyKey_traces.bind fun k₁ key _ hkey ↦ (symbol_traces _).bind fun k₂ _ _ h₂ ↦ ?_
  have close {p : Parser PropertyValue}
      (hp : Traces ts k₂ (fun n value ↦ Strung ts k₂ n value.outlines) p) :
      Traces ts k₂ (fun n (p : Property) ↦ p.outline.Fits ts m n) (do
        let value ← p
        return { key, value, span := ← spanFrom key.span }) := by
    refine hp.bind fun n value hn hvalue ↦ .close ?_
    rintro stop rfl ends
    exact .leading (hkey.mono (Nat.le_refl m) (Nat.le_of_lt h₂)) rfl nofun hn ends hvalue
  refine .cursor fun c ↦ ?_
  split
  · exact close (context_traces.map fun n _ _ h ↦ h)
  · split
    · refine close ((hg.properties pipes k₂).map fun n ps _ h ↦ ?_)
      rwa [outlines_nested]
    · exact close ((hg.value pipes k₂).map fun n _ _ h ↦ .singleton h)

private theorem propertyRound_sweeps (m : Nat) :
    Sweeps ts m (fun n r ↦ Delivered ts (fun ps ↦ Strung ts m n (ps.map PropertyOf.outline))
      (r.1, r.2.error?)) (propertyRound g pipes) := by
  refine .move (fun c hc ↦ hc.skipBlanks) fun k hk ↦ ?_
  refine .cursor fun c ↦ ?_
  split
  · exact .pure ⟨.nil, nofun⟩
  · exact .pure ⟨.nil, nofun⟩
  · refine (recovering_sweeps (property_traces hg pipes k)).bind fun n r hn hr ↦ ?_
    cases r with
    | none => exact .pure ⟨.nil, nofun⟩
    | some p =>
      refine (recovering_sweeps endStatement_traces).bind fun n' _ hn' _ ↦ .pure ⟨?_, nofun⟩
      exact Strung.singleton ((hr p rfl).mono hk hn')

/-- Properties stand one after the other. -/
theorem propertyBlock_traces (m : Nat) :
    Traces ts m (fun n ps ↦ Strung ts m n (ps.map PropertyOf.outline)) (propertyBlock g pipes) := by
  refine (expect_onward _).bind fun k₁ _ h₁ _ ↦ (expect_onward _).bind fun k₂ _ h₂ _ ↦ ?_
  have gathered := rounds_sweeps (Joins.strung _) (propertyRound_sweeps hg pipes) k₂
  refine Traces.bind
    (.gather (R := fun n ps ↦ Strung ts k₂ n (ps.map PropertyOf.outline)) gathered)
    fun n ps hn hps ↦ ?_
  exact (expect_onward _).bind fun n' _ hn' _ ↦ .pure (hps.mono (Nat.le_trans h₁ h₂) hn')

private theorem inlineProperties_traces (m : Nat) :
    Traces ts m (fun n ps ↦ Strung ts m n (ps.map PropertyOf.outline))
      (inlineProperties g pipes) := by
  refine (symbol_traces _).bind fun k _ hk _ ↦ ?_
  refine (commaList_traces (Joins.strung _) _ (fun m ↦ ?_) k).imp fun n ps _ hps ↦
    hps.mono hk (Nat.le_refl n)
  exact (property_traces hg pipes m).imp fun n p _ hp ↦ .singleton hp

omit hg in
/-- A session with what is written in its properties. -/
theorem withProperties_traces {s : Session} (hs : s.Placed ts m k) (hm : m ≤ k)
    {p : Parser (List Property)}
    (hp : Traces ts k (fun n ps ↦ Strung ts k n (ps.map PropertyOf.outline)) p) :
    Traces ts k (fun n s ↦ s.Placed ts m n) (do s.withProperties (← p)) :=
  hp.bind fun _ _ hn hps ↦ .lift (hs.withProperties hps hm hn)

private theorem sessionDetails_traces {s : Session} (hs : s.Placed ts m k) (hm : m ≤ k)
    (pos : 0 < k) : Traces ts k (fun n s ↦ s.Placed ts m n) (sessionDetails g pipes s) := by
  refine .peek fun c hc hk ↦ ?_
  split
  · refine Traces.bind (name_traces _) (fun k₁ agent h₁ hagent ↦ ?_) c hc hk
    have withAgent : SessionOf.Placed ts m k₁ { s with agent := some agent } := by
      refine ⟨hs.bare, (hs.apart.append (.singleton hagent) hm h₁).subperm ?_⟩
      refine subperm_of_count_le fun count one cons append ↦ ?_
      simp only [SessionOf.extent, SessionOf.outlines, append, cons, Option.toList_some,
        List.map_cons, List.map_nil]
      omega
    refine .cursor fun c ↦ ?_
    split
    · exact withProperties_traces withAgent (by omega) (propertyBlock_traces hg pipes k₁)
    · exact .pure withAgent
  · exact withProperties_traces hs hm (inlineProperties_traces hg pipes k) c hc hk
  · refine Traces.cursor (fun c ↦ ?_) c hc hk
    split
    · exact withProperties_traces hs hm (propertyBlock_traces hg pipes k)
    · exact .missingBlock _ pos

/-- A session stands where it is read; its arrow is read later. -/
theorem session_traces (m : Nat) :
    Traces ts m (fun n s ↦ (Action.session s).outline.Fits ts m n ∧ s.arrow = none)
      (session g pipes) := by
  refine (keyword_traces _).bind fun k first _ leads ↦ ?_
  have before : first.start.offset ≤ k := leads.place.before
  have pos : 0 < k := Nat.zero_lt_of_lt leads.place.lt
  refine .peek fun c hc hk ↦ name_optional_traces hc fun k₁ name h₁ hname ↦ ?_
  rw [hk] at h₁ hname
  refine .peek fun c hc hk₁ ↦ string_optional_traces hc fun k₂ prompt h₂ hprompt ↦ ?_
  rw [hk₁] at h₂ hprompt
  refine modifiers?_traces.bind fun k₃ ms h₃ hms ↦ ?_
  have named : SessionOf.Placed ts k k₂ { name, prompt } := by
    refine ⟨rfl, ?_⟩
    have both := (hname.append hprompt h₁ h₂).scattered
    simpa [SessionOf.extent, SessionOf.outlines, Context.names] using both
  have modified : Traces ts k₃ (fun n s ↦ s.Placed ts k n)
      (liftM (SessionOf.withModifiers { name, prompt } ms)) :=
    .lift (named.withModifiers hms (by omega) h₃)
  refine modified.bind fun k₄ s h₄ hs ↦ (symbol?_traces _).bind fun k₅ b h₅ _ ↦ ?_
  have close {n : Nat} {s : Session} (hn : k ≤ n) (hs : s.Placed ts k n) :
      Traces ts n (fun n s ↦ (Action.session s).outline.Fits ts m n ∧ s.arrow = none) (do
        return { s with span := ← spanFrom first }) := by
    refine .close ?_
    rintro stop rfl ends
    rw [outline_session]
    refine ⟨.opened leads hn ends (hs.apart.mono before (Nat.le_refl _)) .nil ?_, hs.bare⟩
    exact ⟨Nat.le_trans before hn, Nat.le_refl _⟩
  have details := hs.mono (Nat.le_refl _) h₅
  split
  · refine (sessionDetails_traces hg pipes details (by omega) (by omega)).bind
      fun n s hn hs ↦ close ?_ hs
    omega
  · exact Traces.bind (.pure details) fun n s hn hs ↦ close (by omega) hs

/-- The definition of an agent stands where it is read. -/
theorem agent_traces (m : Nat) :
    Traces ts m (fun n a ↦ (Statement.agent a).outline.Fits ts m n) (agent g pipes) := by
  refine (keyword_traces _).bind fun k first _ leads ↦ ?_
  have before : first.start.offset ≤ k := leads.place.before
  refine (name_traces _).bind fun k₁ name h₁ hname ↦ (symbol_traces _).bind fun k₂ _ h₂ _ ↦ ?_
  refine .cursor fun c ↦ ?_
  have named : Scattered ts k k₁ (AgentOf.extent
      { name, model := none, prompt := none, skills := [], permissions := none, properties := [],
        keys := [], span := first }) := .singleton hname
  have properties {p : Parser Unit} (hp : Traces ts k₂ (fun _ _ ↦ True) p) :
      Traces ts k₂ (fun n a ↦ (Statement.agent a).outline.Fits ts m n) (do
        p
        let a ← AgentOf.withProperties
          { name, model := none, prompt := none, skills := [], permissions := none, properties := [],
            keys := [], span := first } (← propertyBlock g pipes)
        return { a with span := ← spanFrom first }) := by
    refine hp.bind fun k₃ _ h₃ _ ↦ (propertyBlock_traces hg pipes k₃).bind fun n ps hn hps ↦ ?_
    refine Traces.bind (P := fun n a ↦ Scattered ts k n a.extent) (.lift ?_)
      fun n' a hn' ha ↦ .close ?_
    · exact AgentOf.withProperties_concludes named (hps.mono (by omega) (Nat.le_refl n)) h₁
        (by omega)
    · rintro stop rfl ends
      rw [outline_agent]
      exact .opened leads (by omega) ends (ha.mono before (Nat.le_refl _)) .nil (by omega)
  split
  · exact properties (.missingBlock _ (by omega))
  · exact properties (p := pure ()) (.pure trivial)

/-! ## Bodies and values -/

private theorem indentedBody_traces (m : Nat) :
    Traces ts m (fun n body ↦ Strung ts m n (body.flatMap Statement.outlines))
    (indentedBody g) := by
  refine .take fun k₁ _ h₁ ↦ .take fun k₂ _ h₂ ↦ ?_
  refine Traces.bind (.of_sweeps (statements_sweeps true (hg.statement true) k₂))
    fun n body hn hbody ↦ ?_
  exact (expect_onward _).bind fun n' _ hn' _ ↦ .pure (hbody.mono (Nat.le_trans h₁ h₂) hn')

private theorem blockBody_traces (construct : Construct) (pos : 0 < m) :
    Traces ts m (fun n body ↦ Strung ts m n (body.flatMap Statement.outlines))
      (blockBody g construct) := by
  refine .cursor fun c ↦ ?_
  split
  · exact indentedBody_traces hg m
  · exact .missingBlock _ pos

/-- The statements of a body stand one after the other, if there is one. -/
theorem blockBody?_traces (m : Nat) :
    Traces ts m (fun n body ↦ Strung ts m n (body.flatMap Statement.outlines)) (blockBody? g) := by
  refine .cursor fun c ↦ ?_
  split
  · exact indentedBody_traces hg m
  · exact .pure .nil

/-- The statements of a block stand one after the other. -/
theorem block_traces (construct : Construct) (m : Nat) :
    Traces ts m (fun n body ↦ Strung ts m n (body.flatMap Statement.outlines))
    (block g construct) := by
  refine (symbol_traces _).bind fun k _ hk taken ↦ ?_
  exact (blockBody_traces hg construct (Nat.zero_lt_of_lt taken)).imp
    fun n body _ h ↦ h.mono hk (Nat.le_refl n)

/-- A `do` stands where it is read. -/
theorem doAction_traces (m : Nat) :
    Traces ts m (fun n a ↦ a.outline.Fits ts m n ∧ (Statement.action a).arrow? = none)
      (doAction g pipes) := by
  refine (keyword_traces _).bind fun k first _ leads ↦ ?_
  have before : first.start.offset ≤ k := leads.place.before
  refine (atSymbol_traces _).bind fun k₁ b h₁ _ ↦ ?_
  split
  · refine (block_traces hg _ k₁).bind fun n body hn hbody ↦ .close ?_
    rintro stop rfl ends
    rw [outline_doBlock]
    exact ⟨.opened leads (by omega) ends .nil hbody (by omega), rfl⟩
  · refine (name_traces _).bind fun k₂ name h₂ hname ↦ ?_
    refine (parenthesized?_traces (Joins.strung Expr.outline)
      (fun m ↦ (hg.value pipes m).imp fun n _ _ h ↦ .singleton h) k₂).bind
      fun n args hn hargs ↦ .close ?_
    rintro stop rfl ends
    rw [outline_invoke]
    exact ⟨.opened leads (by omega) ends .nil (.cons hname hargs h₂ hn) (by omega), rfl⟩

private theorem objectEntry_traces (m : Nat) :
    Traces ts m (fun n e ↦ Strung ts m n (e.outlines)) (objectEntry g pipes) := by
  refine (name_traces _).bind fun k₁ key h₁ hkey ↦ (symbol?_traces _).bind fun k₂ b h₂ _ ↦ ?_
  have hkey := hkey.mono (Nat.le_refl m) h₂
  split
  · refine Traces.bind ((hg.value pipes k₂).map
      (Q := fun n x ↦ Strung ts k₂ n (x.toList.map Expr.outline)) ?_) fun n value hn hvalue ↦ ?_
    · exact fun n e _ he ↦ .singleton he
    · exact .pure (.cons hkey hvalue (by omega) hn)
  · exact .pure (.singleton hkey)

/-- A value without a pipe stands where it is read. -/
theorem primary_traces (m : Nat) :
    Traces ts m (fun n e ↦ e.outline.Fits ts m n) (primary g pipes) := by
  refine .peek fun c hc hm ↦ ?_
  split
  · exact .of_traces ((session_traces hg pipes m).bind fun n s _ hs ↦ .pure hs.1) hc hm
  · exact .of_traces ((doAction_traces hg pipes m).map fun n a _ ha ↦ ha.1) hc hm
  · exact .of_traces ((string_traces _).map fun n s _ hs ↦ hs) hc hm
  · next digits hk =>
    refine Traces.take_at hc (by rw [hk]; rfl) fun n place ↦ .pure ?_
    exact fits_leaf.2 (hm ▸ place)
  · exact .of_traces ((name_traces _).map fun n x _ hx ↦ hx) hc hm
  · exact .of_traces ((discretion_traces _).map fun n d _ hd ↦ hd) hc hm
  · next hk =>
    have visible : c.current.kind.isLayout = false := by rw [hk]; rfl
    refine Traces.take_at hc visible fun k place ↦ ?_
    have before := place.before
    refine (commaList_traces (Joins.strung Expr.outline) _
      (fun m ↦ (hg.value pipes m).imp fun n _ _ h ↦ .singleton h) k).bind
      fun n items hn hitems ↦ .close ?_
    rintro stop rfl ends
    rw [outline_array]
    have own : c.current.kind.isAside = false := by rw [hk]; rfl
    exact .opened (hc.leads visible own (hm ▸ place) nofun) hn ends .nil hitems ⟨before, hn⟩
  · next hk =>
    have visible : c.current.kind.isLayout = false := by rw [hk]; rfl
    refine Traces.take_at hc visible fun k place ↦ ?_
    have before := place.before
    have entry (m : Nat) : Traces ts m (fun n e ↦ Strung ts m n ([e].flatMap EntryOf.outlines))
        (objectEntry g pipes) :=
      (objectEntry_traces hg pipes m).imp fun n e _ he ↦ by rwa [List.flatMap_singleton]
    refine (commaList_traces (Joins.strungAll EntryOf.outlines) _ entry k).bind
      fun n entries hn hentries ↦ .close ?_
    rintro stop rfl ends
    rw [outline_object]
    have own : c.current.kind.isAside = false := by rw [hk]; rfl
    exact .opened (hc.leads visible own (hm ▸ place) nofun) hn ends .nil hentries ⟨before, hn⟩
  · exact Traces.unexpected _ c hc hm

omit hg pipes in
private theorem pipeNames_traces (operator : PipeOperator) (m : Nat) :
    Traces ts m (fun n r ↦ Scattered ts m n
      (r.1.toList.map Located.outline ++ r.2.toList.map Located.outline)) (pipeNames operator) := by
  rw [pipeNames]
  split
  · refine (symbol_traces _).bind fun k₁ _ h₁ _ ↦ ?_
    refine (name_traces _).bind fun k₂ accumulator h₂ haccumulator ↦ ?_
    refine (symbol_traces _).bind fun k₃ _ h₃ _ ↦ (name_traces _).bind fun k₄ item h₄ hitem ↦ ?_
    refine (symbol_traces _).bind fun n _ hn _ ↦ .pure ?_
    have first : Strung ts m k₂ [accumulator.outline] :=
      (Strung.singleton haccumulator).mono h₁ (Nat.le_refl k₂)
    have both : Strung ts m n ([accumulator.outline] ++ [item.outline]) :=
      first.append (.singleton (hitem.mono h₃ hn)) (by omega) (by omega)
    exact both.scattered.perm (.swap _ _ _)
  · refine (symbol?_traces _).bind fun k₁ b h₁ _ ↦ ?_
    split
    · refine (name_traces _).bind fun k₂ item h₂ hitem ↦ ?_
      exact (symbol_traces _).bind fun n _ hn _ ↦ .pure (.singleton (hitem.mono h₁ hn))
    · exact .pure .nil

private theorem inlineBody_traces (pos : 0 < m) :
    Traces ts m (fun n body ↦ Strung ts m n (body.flatMap Statement.outlines)) (inlineBody g) := by
  refine .peek fun c hc hm ↦ ?_
  split
  · exact Traces.missingBlock _ pos c hc hm
  · exact Traces.missingBlock _ pos c hc hm
  · exact Traces.missingBlock _ pos c hc hm
  · refine Traces.bind (.of_sweeps (hg.statement false m)) (fun n r _ hr ↦ ?_) c hc hm
    rcases r with ⟨read, e | e⟩
    · exact .pure hr.read
    · exact .throw (hr.error e rfl)

private theorem pipeOperation_traces (m : Nat) :
    Traces ts m (fun n o ↦ o.outline.Fits ts m n) (pipeOperation g) := by
  refine (expect_traces _ rfl).bind fun k first _ hfirst ↦ ?_
  have leads := leads_of_taken hfirst rfl
  have before := leads.place.before
  refine (name_traces _).bind fun k₁ name h₁ hname ↦ ?_
  split
  · next operator found =>
    refine (pipeNames_traces operator k₁).bind fun k₂ names h₂ hnames ↦ ?_
    refine (symbol_traces _).bind fun k₃ _ h₃ taken ↦ .cursor fun c ↦ ?_
    have close {p : Parser (List Statement)}
        (hp : Traces ts k₃ (fun n body ↦ Strung ts k₃ n (body.flatMap Statement.outlines)) p) :
        Traces ts k₃ (fun n (o : Operation) ↦ o.outline.Fits ts m n) (do
          let body ← p
          return { operator := ⟨operator, name.span⟩, item := names.1, accumulator := names.2, body,
                   span := ← spanFrom first.span }) := by
      refine hp.bind fun n body hn hbody ↦ .close ?_
      rintro stop rfl ends
      have parts := (Scattered.singleton hname).append hnames h₁ h₂
      rw [← List.append_assoc] at parts
      exact .opened leads (by omega) ends (parts.mono before h₃) hbody (by omega)
    split
    · exact close (indentedBody_traces hg k₃)
    · exact close (inlineBody_traces hg (Nat.zero_lt_of_lt taken))
  · exact .throw hname.anchored

/-- The operations after an input that starts where the pipe does. -/
theorem pipeTail_traces {input : Expr} {first : Span} (hinput : input.outline.Fits ts m k)
    (starts : input.span.start = first.start) :
    Traces ts k (fun n p ↦ (Action.pipe p).outline.Fits ts m n) (pipeTail g input first) := by
  refine (manyWhile_traces (Joins.strung OperationOf.outline) (fun m ↦ atSymbol_traces _)
    (fun m ↦ (pipeOperation_traces hg m).imp fun n _ _ h ↦ .singleton h) k).bind
    fun n operations hn hoperations ↦ .close ?_
  rintro stop rfl ends
  rw [outline_pipe]
  refine .leading hinput ?_ nofun hn ends hoperations
  rw [Expr.outline_span, starts]

omit hg in
/-- A look for a pipe moves no cursor. -/
theorem atPipe_traces : Traces ts m (fun _ _ ↦ True) (atPipe pipes) :=
  (atSymbol_traces _).bind fun _ _ _ _ ↦ .pure trivial

/-- A value that a pipe may follow, and where it starts. -/
theorem primary_tracesAt (hc : c.Orderly ts) (hm : c.lastEnd.offset = m) :
    TracesAt ts c (fun n e ↦ e.outline.Fits ts m n ∧ e.span.start = c.current.span.start)
      (primary g pipes) := by
  refine TracesAt.of_runs (primary_traces hg pipes m c hc hm) fun e d run ↦ ?_
  exact primary_starts run

/-- A value stands where it is read. -/
theorem value_traces (m : Nat) :
    Traces ts m (fun n e ↦ e.outline.Fits ts m n) (value g pipes) := by
  refine .here fun c hc hm ↦ TracesAt.bind
    (primary_tracesAt hg pipes hc hm) fun k input _ hinput ↦ ?_
  refine (atPipe_traces pipes).bind fun k₁ b h₁ _ ↦ ?_
  split
  · refine (pipeTail_traces hg (hinput.1.mono (Nat.le_refl m) h₁) hinput.2).bind fun n p _ hp ↦ ?_
    exact .pure hp
  · exact .pure (hinput.1.mono (Nat.le_refl m) h₁)

end Nested

end Parser

end ProseLang
