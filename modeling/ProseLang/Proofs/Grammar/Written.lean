import ProseLang.Proofs.Grammar.Settings
import ProseLang.Proofs.Grammar.Spans

/-!
# What sessions and agents are written with

A session is read setting by setting and built as it is read. `SessionText` is what stands there
before anything is built from it, and `Parser.sessionText` reads that; `AgentText` is the same for
the definition of an agent. Whatever is read as a session is built from the text at its place
(`Parser.session_tells`).

A session is only built from a text that writes each of its settings once, whether as a modifier, as
the agent after the colon, as the prompt on the first line or as a property
(`SessionText.settings_of_build`).
-/

namespace ProseLang

/-! ## Settings one after the other -/

/-- Whether the settings that something has are some names, each of them once. -/
structure Tracks {α : Type} (has : α → String → Prop) (a : α) (names : List String) : Prop where
  once : names.Nodup
  has_iff : ∀ name, has a name ↔ name ∈ names

namespace Tracks

variable {α : Type} {has : α → String → Prop} {a a' : α} {names : List String}

/-- One more setting, which was not set before. -/
theorem add (h : Tracks has a names) {name : String} (new : ¬ has a name)
    (adds : ∀ other, has a' other ↔ has a other ∨ other = name) :
    Tracks has a' (names ++ [name]) where
  once := by
    refine List.nodup_append.2 ⟨h.once, by simp, ?_⟩
    rintro x hx y hy rfl
    obtain rfl := List.mem_singleton.1 hy
    exact new ((h.has_iff x).2 hx)
  has_iff other := by rw [adds, h.has_iff, List.mem_append, List.mem_singleton]

end Tracks

/-- What holds at the start and after each step of a fold that may fail holds at its end. -/
theorem foldlM_induction {α β ε : Type} {f : α → β → Except ε α} {P : β → Prop}
    {R : List β → α → Prop} {a a' : α} {bs : List β}
    (step : ∀ done a b a', P b → R done a → f a b = .ok a' → R (done ++ [b]) a') (h : R [] a)
    (hbs : ∀ b ∈ bs, P b) (run : bs.foldlM f a = .ok a') : R bs a' := by
  suffices later : ∀ done a, R done a → bs.foldlM f a = .ok a' → R (done ++ bs) a' from
    later [] a h run
  clear h run
  induction bs with
  | nil =>
    intro done a h run
    obtain rfl : a = a' := Except.ok.inj run
    rwa [List.append_nil]
  | cons b bs ih =>
    intro done a h run
    obtain ⟨next, first, rest⟩ := except_bind run
    obtain ⟨hb, hbs⟩ := List.forall_mem_cons.1 hbs
    have whole := ih hbs (done ++ [b]) next (step done a b next hb h first) rest
    rwa [List.append_assoc] at whole

/-- What is set once was not set before. -/
theorem eq_none_of_setOnce {α : Type} {slot r : Option α} {key : Ident} {value : α}
    (h : setOnce slot key value = .ok r) : slot = none ∧ r = some value := by
  cases slot with
  | none => exact ⟨rfl, setOnce_eq_ok h⟩
  | some old => cases h

/-- What is built with a setting had none before. -/
theorem of_setOnce_bind {α β : Type} {slot : Option α} {key : Ident} {value : α}
    {build : Option α → β} {y : β}
    (h : (setOnce slot key value >>= fun v ↦ pure (some (build v))) = .ok (some y)) :
    slot = none ∧ y = build (some value) := by
  obtain ⟨v, once, h⟩ := except_bind h
  obtain ⟨free, rfl⟩ := eq_none_of_setOnce once
  exact ⟨free, (Option.some.inj (Except.ok.inj h)).symm⟩

/-! ## Sessions -/

/-- What is written for a session. -/
structure SessionText where
  name : Option Ident
  /-- The prompt on the first line. -/
  prompt : Option StringLit
  modifiers : List Modifier
  /-- The agent right after the colon. -/
  agent : Option Ident
  properties : List Property
  span : Span

/-- Whether a property is one of the settings of a session. A group of properties is no model and no
skills. -/
def PropertyOf.isSessionSetting (p : Property) : Bool :=
  match p.key.val, p.value with
  | "agent", _ | "prompt", _ | "retry", _ | "backoff", _ => true
  | "model", .expr _ | "skills", .expr _ | "context", .context _ => true
  | _, _ => false

namespace SessionOf

/-- Whether a setting of a session is set. -/
def HasSetting (s : Session) (name : String) : Prop :=
  (name = "agent" ∧ s.agent.isSome = true) ∨ (name = "model" ∧ s.model.isSome = true)
    ∨ (name = "prompt" ∧ s.prompt.isSome = true) ∨ (name = "skills" ∧ s.skills.isSome = true)
    ∨ (name = "context" ∧ s.context.isImplicit = false) ∨ (name = "retry" ∧ s.retry.isSome = true)
    ∨ (name = "backoff" ∧ s.backoff.isSome = true)

/-- Whether the step from one session to another sets one setting that was not set. -/
structure Adds (s : Session) (name : String) (s' : Session) : Prop where
  new : ¬ s.HasSetting name
  adds : ∀ other, s'.HasSetting other ↔ s.HasSetting other ∨ other = name

/-- The session with the agent after its colon. -/
def withShorthand (s : Session) : Option Ident → Session
  | none => s
  | some agent => { s with agent := some agent }

variable {s s' : Session} {p : Property} {m : Modifier}

/-- A session with one more modifier. -/
theorem withModifier_adds (h : s.withModifier m = .ok s') :
    ∃ key, m.key = some key ∧ s.Adds key.val s' ∧ s'.keys = s.keys ++ [key]
      ∧ (key.val = "retry" ∨ key.val = "backoff") ∧ s'.properties = s.properties := by
  obtain ⟨key, value, span⟩ := m
  cases key with
  | none => cases h
  | some key =>
    unfold withModifier at h
    dsimp only at h
    split at h
    · next digits word =>
      obtain ⟨n, -, h⟩ := except_bind h
      obtain ⟨retry, once, h⟩ := except_bind h
      cases h
      obtain ⟨free, rfl⟩ := eq_none_of_setOnce once
      exact ⟨key, rfl, ⟨by grind [HasSetting], fun _ ↦ by grind [HasSetting]⟩, rfl, .inl word, rfl⟩
    · next strategy word =>
      obtain ⟨backoff, once, h⟩ := except_bind h
      cases h
      obtain ⟨free, rfl⟩ := eq_none_of_setOnce once
      exact ⟨key, rfl, ⟨by grind [HasSetting], fun _ ↦ by grind [HasSetting]⟩, rfl, .inr word, rfl⟩
    · cases h
    · cases h
    · cases h

/-- The settings of a session are the properties that sessions have. -/
theorem isSome_withKnown? {known : Option Session} (h : s.withKnown? p = .ok known) :
    known.isSome = p.isSessionSetting := by
  obtain ⟨key, value, span⟩ := p
  have set {α : Type} {r : Except ParseError α} {build : α → Session}
      (h : (r >>= fun v ↦ pure (some (build v))) = .ok known) : known.isSome = true := by
    obtain ⟨v, -, h⟩ := except_bind h
    cases h
    rfl
  unfold withKnown? at h
  dsimp only at h
  split at h
  · next agent word => simp [PropertyOf.isSessionSetting, word, set h]
  · cases h
  · next value word =>
    split at h
    · simp [PropertyOf.isSessionSetting, word, set h]
    · cases h
  · next prompt word => simp [PropertyOf.isSessionSetting, word, set h]
  · cases h
  · next value word =>
    split at h
    · simp [PropertyOf.isSessionSetting, word, set h]
    · cases h
  · next context word =>
    split at h
    · cases h
      simp [PropertyOf.isSessionSetting, word]
    · cases h
  · next digits word =>
    obtain ⟨n, -, h⟩ := except_bind h
    simp [PropertyOf.isSessionSetting, word, set h]
  · cases h
  · next strategy word => simp [PropertyOf.isSessionSetting, word, set h]
  · cases h
  · cases h
    unfold PropertyOf.isSessionSetting
    grind

/-- A session with a property that sessions have. -/
theorem withKnown?_adds (explicit : p.value ≠ .context .implicit)
    (h : s.withKnown? p = .ok (some s')) :
    s.Adds p.key.val s' ∧ s'.keys = s.keys ∧ s'.properties = s.properties := by
  obtain ⟨key, value, span⟩ := p
  unfold withKnown? at h
  dsimp only at h explicit ⊢
  split at h
  · next agent word =>
    obtain ⟨free, rfl⟩ := of_setOnce_bind h
    exact ⟨⟨by grind [HasSetting], fun _ ↦ by grind [HasSetting]⟩, rfl, rfl⟩
  · cases h
  · next value word =>
    split at h
    · obtain ⟨free, rfl⟩ := of_setOnce_bind h
      exact ⟨⟨by grind [HasSetting], fun _ ↦ by grind [HasSetting]⟩, rfl, rfl⟩
    · cases h
  · next prompt word =>
    obtain ⟨free, rfl⟩ := of_setOnce_bind h
    exact ⟨⟨by grind [HasSetting], fun _ ↦ by grind [HasSetting]⟩, rfl, rfl⟩
  · cases h
  · next value word =>
    split at h
    · obtain ⟨free, rfl⟩ := of_setOnce_bind h
      exact ⟨⟨by grind [HasSetting], fun _ ↦ by grind [HasSetting]⟩, rfl, rfl⟩
    · cases h
  · next context word =>
    split at h
    · next implicit =>
      cases h
      have given : context.isImplicit = false := by
        cases context with
        | implicit => exact absurd rfl explicit
        | _ => rfl
      exact ⟨⟨by grind [HasSetting], fun _ ↦ by grind [HasSetting]⟩, rfl, rfl⟩
    · cases h
  · next digits word =>
    obtain ⟨n, counts, h⟩ := except_bind h
    obtain ⟨free, rfl⟩ := of_setOnce_bind h
    exact ⟨⟨by grind [HasSetting], fun _ ↦ by grind [HasSetting]⟩, rfl, rfl⟩
  · cases h
  · next strategy word =>
    obtain ⟨free, rfl⟩ := of_setOnce_bind h
    exact ⟨⟨by grind [HasSetting], fun _ ↦ by grind [HasSetting]⟩, rfl, rfl⟩
  · cases h
  · cases h

/-- A session with one more property: it is a setting, or it is kept as it is. -/
theorem withProperty_adds (explicit : p.value ≠ .context .implicit)
    (h : s.withProperty p = .ok s') :
    if p.isSessionSetting then
      s.Adds p.key.val s' ∧ s'.keys = s.keys ++ [p.key] ∧ s'.properties = s.properties
    else s' = { s with properties := s.properties ++ [p] } := by
  obtain ⟨known, run, h⟩ := except_bind h
  rw [← isSome_withKnown? run]
  cases known with
  | some next =>
    cases h
    obtain ⟨adds, keys, properties⟩ := withKnown?_adds explicit run
    exact ⟨⟨adds.new, adds.adds⟩, by rw [keys], properties⟩
  | none =>
    cases h
    exact rfl

/-- Whether a session has some settings, with some keys and some other properties. -/
structure IsBuilt (s : Session) (names : List String) (keys : List Ident)
    (properties : List Property) : Prop where
  tracks : Tracks HasSetting s names
  keys : s.keys = keys
  properties : s.properties = properties

namespace IsBuilt

variable {names : List String} {keys : List Ident} {properties : List Property}

private theorem add (h : s.IsBuilt names keys properties) {key : Ident} (adds : s.Adds key.val s')
    (keys' : s'.keys = s.keys ++ [key]) (same : s'.properties = s.properties) :
    s'.IsBuilt (names ++ [key.val]) (keys ++ [key]) properties where
  tracks := h.tracks.add adds.new adds.adds
  keys := by rw [keys', h.keys]
  properties := same.trans h.properties

end IsBuilt

end SessionOf

namespace SessionText

/-- The session that is built from what is written. -/
def build (text : SessionText) : Except ParseError Session := do
  let s ← SessionOf.withModifiers { name := text.name, prompt := text.prompt } text.modifiers
  let s ← (s.withShorthand text.agent).withProperties text.properties
  return { s with span := text.span }

/-- The keys of the settings that are written with one. -/
def keys (text : SessionText) : List Ident :=
  text.modifiers.filterMap Modifier.key
    ++ (text.properties.filter (·.isSessionSetting)).map PropertyOf.key

/-- The settings that are written, from all of the places where they may stand. -/
def settings (text : SessionText) : List String :=
  text.prompt.toList.map (fun _ ↦ "prompt") ++ text.agent.toList.map (fun _ ↦ "agent")
    ++ text.keys.map Located.val

variable {text : SessionText} {s s' : Session}

/-- The session with its modifiers. -/
theorem isBuilt_withModifiers {name : Option Ident} {prompt : Option StringLit} {ms : List Modifier}
    (h : SessionOf.withModifiers { name, prompt } ms = .ok s) :
    s.IsBuilt (prompt.toList.map (fun _ ↦ "prompt") ++ (ms.filterMap Modifier.key).map Located.val)
        (ms.filterMap Modifier.key) []
      ∧ ∀ key ∈ ms.filterMap Modifier.key, key.val = "retry" ∨ key.val = "backoff" := by
  refine foldlM_induction (P := fun _ ↦ True)
    (R := fun done s ↦ s.IsBuilt (prompt.toList.map (fun _ ↦ "prompt")
        ++ (done.filterMap Modifier.key).map Located.val) (done.filterMap Modifier.key) []
      ∧ ∀ key ∈ done.filterMap Modifier.key, key.val = "retry" ∨ key.val = "backoff")
    ?_ ⟨⟨⟨?_, fun name ↦ ?_⟩, rfl, rfl⟩, nofun⟩ (fun _ _ ↦ trivial) h
  · rintro done s m s' - ⟨built, known⟩ step
    obtain ⟨key, some, adds, keys, word, same⟩ := SessionOf.withModifier_adds step
    rw [List.filterMap_append, List.filterMap_cons_some some, List.filterMap_nil, List.map_append,
      ← List.append_assoc]
    exact ⟨built.add adds keys same, forall_mem_snoc known word⟩
  · cases prompt <;> simp
  · cases prompt <;> simp [SessionOf.HasSetting, Context.isImplicit]

/-- The agent after the colon is a setting like any other. -/
theorem isBuilt_withShorthand {names : List String} {keys : List Ident} {agent : Option Ident}
    (h : s.IsBuilt names keys []) (new : "agent" ∉ names) :
    (s.withShorthand agent).IsBuilt (names ++ agent.toList.map fun _ ↦ "agent") keys [] := by
  cases agent with
  | none => rwa [Option.toList_none, List.map_nil, List.append_nil]
  | some agent =>
    refine ⟨h.tracks.add (mt (h.tracks.has_iff _).1 new) fun other ↦ ?_, h.keys, h.properties⟩
    have free : s.agent.isSome = false :=
      Bool.eq_false_iff.2 fun given ↦ new ((h.tracks.has_iff "agent").1 (.inl ⟨rfl, given⟩))
    simp only [SessionOf.HasSetting, SessionOf.withShorthand, free]
    grind

/-- The session with its properties. -/
theorem isBuilt_withProperties {names : List String} {keys : List Ident} {ps : List Property}
    (start : s.IsBuilt names keys []) (explicit : ∀ p ∈ ps, p.value ≠ .context .implicit)
    (h : s.withProperties ps = .ok s') :
    s'.IsBuilt (names ++ ((ps.filter (·.isSessionSetting)).map PropertyOf.key).map Located.val)
      (keys ++ (ps.filter (·.isSessionSetting)).map PropertyOf.key)
      (ps.filter (!·.isSessionSetting)) := by
  refine foldlM_induction (P := fun p : Property ↦ p.value ≠ .context .implicit)
    (R := fun done s ↦ s.IsBuilt
      (names ++ ((done.filter (·.isSessionSetting)).map PropertyOf.key).map Located.val)
      (keys ++ (done.filter (·.isSessionSetting)).map PropertyOf.key)
      (done.filter (!·.isSessionSetting)))
    (fun done s p s' explicit built step ↦ ?_) (by simpa using start) explicit h
  have added := SessionOf.withProperty_adds explicit step
  cases known : p.isSessionSetting with
  | true =>
    rw [if_pos known] at added
    obtain ⟨adds, keys, same⟩ := added
    simpa [known] using built.add adds keys same
  | false =>
    rw [if_neg (Bool.eq_false_iff.1 known)] at added
    subst added
    have same := built.properties
    exact ⟨⟨by simpa [known] using built.tracks.once,
        fun name ↦ (built.tracks.has_iff name).trans (by simp [known])⟩,
      by simpa [known] using built.keys, by simp [known, same]⟩

/-- A session is only built from what writes each setting once. -/
theorem settings_of_build (explicit : ∀ p ∈ text.properties, p.value ≠ .context .implicit)
    (h : text.build = .ok s) :
    text.settings.Nodup ∧ s.keys = text.keys
      ∧ s.properties = text.properties.filter (!·.isSessionSetting) ∧ s.span = text.span := by
  obtain ⟨modified, modifiers, h⟩ := except_bind h
  obtain ⟨whole, properties, h⟩ := except_bind h
  cases h
  obtain ⟨built, known⟩ := isBuilt_withModifiers modifiers
  have new : "agent" ∉ text.prompt.toList.map (fun _ ↦ "prompt")
      ++ (text.modifiers.filterMap Modifier.key).map Located.val := by
    intro found
    rcases List.mem_append.1 found with found | found
    · simp at found
    · obtain ⟨key, hkey, word⟩ := List.mem_map.1 found
      rcases known key hkey with h | h <;> simp [h] at word
  obtain ⟨⟨once, -⟩, keys, others⟩ :=
    isBuilt_withProperties (isBuilt_withShorthand built new) explicit properties
  refine ⟨?_, keys, others, rfl⟩
  refine (List.Perm.nodup_iff ?_).1 once
  rw [settings, SessionText.keys, List.map_append]
  simp only [List.append_assoc]
  exact (List.perm_append_comm_assoc _ _ _).append_left _

end SessionText

/-! ## Agents -/

/-- What is written for the definition of an agent. -/
structure AgentText where
  /-- The place of the reserved word. -/
  keyword : Span
  name : Ident
  properties : List Property
  span : Span

/-- Whether a property is one of the settings of an agent. -/
def PropertyOf.isAgentSetting (p : Property) : Bool :=
  match p.key.val, p.value with
  | "prompt", _ | "permissions", _ => true
  | "model", .expr _ | "skills", .expr _ => true
  | _, _ => false

namespace AgentOf

/-- Whether a setting of an agent is set. -/
def HasSetting (a : Agent) (name : String) : Prop :=
  (name = "model" ∧ a.model.isSome = true) ∨ (name = "prompt" ∧ a.prompt.isSome = true)
    ∨ (name = "permissions" ∧ a.permissions.isSome = true)
    ∨ (name = "skills" ∧ "skills" ∈ a.keys.map Located.val)

variable {a a' : Agent} {p : Property}

/-- The settings of an agent are the properties that agents have. -/
theorem isSome_withKnown? {known : Option Agent} (h : a.withKnown? p = .ok known) :
    known.isSome = p.isAgentSetting := by
  obtain ⟨key, value, span⟩ := p
  have set {α : Type} {r : Except ParseError α} {build : α → Agent}
      (h : (r >>= fun v ↦ pure (some (build v))) = .ok known) : known.isSome = true := by
    obtain ⟨v, -, h⟩ := except_bind h
    cases h
    rfl
  unfold withKnown? at h
  dsimp only at h
  split at h
  · next value word =>
    split at h
    · simp [PropertyOf.isAgentSetting, word, set h]
    · cases h
  · next prompt word => simp [PropertyOf.isAgentSetting, word, set h]
  · cases h
  · next value word =>
    split at h
    · cases h
    · split at h
      · cases h
        simp [PropertyOf.isAgentSetting, word]
      · cases h
  · next group word => simp [PropertyOf.isAgentSetting, word, set h]
  · cases h
  · cases h
    unfold PropertyOf.isAgentSetting
    grind

/-- An agent with one more property: it is a setting that was not set, or it is kept as it is. -/
theorem withProperty_adds (h : a.withProperty p = .ok a') :
    if p.isAgentSetting then
      ¬ a.HasSetting p.key.val
        ∧ (∀ other, a'.HasSetting other ↔ a.HasSetting other ∨ other = p.key.val)
        ∧ a'.keys = a.keys ++ [p.key] ∧ a'.properties = a.properties
    else a' = { a with properties := a.properties ++ [p] } := by
  obtain ⟨known, run, h⟩ := except_bind h
  rw [← isSome_withKnown? run]
  cases known with
  | none =>
    cases h
    exact rfl
  | some next =>
    cases h
    rw [if_pos (Option.isSome_some)]
    obtain ⟨key, value, span⟩ := p
    have keyed {word : String} : word ∈ (a.keys ++ [key]).map Located.val
        ↔ word ∈ a.keys.map Located.val ∨ word = key.val := by simp
    unfold withKnown? at run
    dsimp only at run ⊢
    split at run
    · next value word =>
      split at run
      · obtain ⟨free, rfl⟩ := of_setOnce_bind run
        exact ⟨by grind [HasSetting], fun _ ↦ by grind [HasSetting], rfl, rfl⟩
      · cases run
    · next prompt word =>
      obtain ⟨free, rfl⟩ := of_setOnce_bind run
      exact ⟨by grind [HasSetting], fun _ ↦ by grind [HasSetting], rfl, rfl⟩
    · cases run
    · next value word =>
      split at run
      · cases run
      · next fresh =>
        have fresh : "skills" ∉ a.keys.map Located.val := by simpa using fresh
        split at run
        · cases run
          exact ⟨by grind [HasSetting], fun _ ↦ by grind [HasSetting], rfl, rfl⟩
        · cases run
    · next group word =>
      obtain ⟨free, rfl⟩ := of_setOnce_bind run
      exact ⟨by grind [HasSetting], fun _ ↦ by grind [HasSetting], rfl, rfl⟩
    · cases run
    · cases run

end AgentOf

namespace AgentText

/-- The agent that is built from what is written. -/
def build (text : AgentText) : Except ParseError Agent := do
  let empty : Agent :=
    { name := text.name, model := none, prompt := none, skills := [], permissions := none,
      properties := [], keys := [], span := text.keyword }
  let a ← empty.withProperties text.properties
  return { a with span := text.span }

/-- The keys of the settings that are written. -/
def keys (text : AgentText) : List Ident :=
  (text.properties.filter (·.isAgentSetting)).map PropertyOf.key

variable {text : AgentText} {a : Agent}

/-- An agent is only built from what writes each setting once. -/
theorem settings_of_build (h : text.build = .ok a) :
    (text.keys.map Located.val).Nodup ∧ a.keys = text.keys
      ∧ a.properties = text.properties.filter (!·.isAgentSetting) ∧ a.span = text.span := by
  obtain ⟨whole, run, h⟩ := except_bind h
  cases h
  suffices built : Tracks AgentOf.HasSetting whole (text.keys.map Located.val)
      ∧ whole.keys = text.keys ∧ whole.properties = text.properties.filter (!·.isAgentSetting) from
    ⟨built.1.once, built.2.1, built.2.2, rfl⟩
  refine foldlM_induction (P := fun _ ↦ True)
    (R := fun done a ↦
      Tracks AgentOf.HasSetting a (((done.filter (·.isAgentSetting)).map PropertyOf.key).map
        Located.val)
        ∧ a.keys = (done.filter (·.isAgentSetting)).map PropertyOf.key
        ∧ a.properties = done.filter (!·.isAgentSetting))
    ?_ ⟨⟨List.nodup_nil, fun name ↦ ?_⟩, rfl, rfl⟩ (fun _ _ ↦ trivial) run
  · rintro done a p a' - ⟨tracks, keys, others⟩ step
    have added := AgentOf.withProperty_adds step
    cases known : p.isAgentSetting with
    | true =>
      rw [if_pos known] at added
      obtain ⟨new, adds, keys', same⟩ := added
      exact ⟨by simpa [known] using tracks.add new adds, by simp [known, keys', keys],
        by simp [known, same, others]⟩
    | false =>
      rw [if_neg (Bool.eq_false_iff.1 known)] at added
      subst added
      exact ⟨⟨by simpa [known] using tracks.once,
        fun name ↦ (tracks.has_iff name).trans (by simp [known])⟩, by simp [known, keys],
        by simp [known, others]⟩
  · simp [AgentOf.HasSetting]

end AgentText

/-! ## Parallel blocks and loops -/

/-- The value of a modifier as a text. -/
def ModifierValue.string? : ModifierValue → Option (Located String)
  | string s => some ⟨s.value, s.span⟩
  | number _ => none

/-- The value of a modifier as a number that counts something. -/
def ModifierValue.count? : ModifierValue → Option (Located Nat)
  | string _ => none
  | number digits => (Parser.countOf digits).toOption

/-- The value that modifiers give to a key last. -/
def lastValue? (ms : List Modifier) (word : String) : Option ModifierValue :=
  (ms.reverse.find? fun m ↦ m.key.any (·.val = word)).map Modifier.value

/-- The values without a key. -/
def plainValues (ms : List Modifier) : List ModifierValue :=
  (ms.filter (·.key.isNone)).map Modifier.value

section

variable {ms : List Modifier} {m : Modifier} {word : String}

private theorem lastValue?_append_of_eq {key : Ident} (hkey : m.key = some key)
    (hword : key.val = word) : lastValue? (ms ++ [m]) word = some m.value := by
  simp [lastValue?, hkey, hword]

private theorem lastValue?_append_of_ne (h : m.key.any (·.val = word) = false) :
    lastValue? (ms ++ [m]) word = lastValue? ms word := by
  simp [lastValue?, h]

private theorem plainValues_append_of_none (h : m.key = none) :
    plainValues (ms ++ [m]) = plainValues ms ++ [m.value] := by
  simp [plainValues, h]

private theorem plainValues_append_of_some {key : Ident} (h : m.key = some key) :
    plainValues (ms ++ [m]) = plainValues ms := by
  simp [plainValues, h]

end

/-- Whether a parallel block has the settings of some modifiers: of those with the same key the
last, and of those without a key the only one. -/
structure ParallelOf.TakesLast (p : Parallel) (ms : List Modifier) : Prop where
  keys : p.keys = ms.filterMap Modifier.key
  known : ∀ key ∈ p.keys, key.val = "on-fail" ∨ key.val = "count"
  join : p.join.toList.map some = (plainValues ms).map ModifierValue.string?
  onFail : p.onFail = (lastValue? ms "on-fail").bind ModifierValue.string?
  count : p.count = (lastValue? ms "count").bind ModifierValue.count?

/-- Whether a loop has the settings of some modifiers: of those with the same key the last. -/
structure LoopOf.TakesLast (l : Loop) (ms : List Modifier) : Prop where
  keys : l.keys = ms.filterMap Modifier.key
  known : ∀ key ∈ l.keys, key.val = "max"
  plain : plainValues ms = []
  max : l.maxIterations = (lastValue? ms "max").bind ModifierValue.count?

/-- A value that counts something. -/
theorem ModifierValue.count?_number {digits : Located String} {n : Located Nat}
    (h : Parser.countOf digits = .ok n) : (number digits).count? = some n := by
  rw [count?, h]
  rfl

namespace ParallelOf

variable {p p' : Parallel} {ms : List Modifier} {m : Modifier}

private theorem TakesLast.withModifier (h : p.TakesLast ms) (step : p.withModifier m = .ok p') :
    p'.TakesLast (ms ++ [m]) := by
  obtain ⟨key, value, span⟩ := m
  unfold ParallelOf.withModifier at step
  dsimp only at step
  split at step
  · split at step
    · next s free =>
      cases step
      have join := h.join
      rw [free] at join
      exact
        { keys := by simpa using h.keys
          known := h.known
          join := by simp [plainValues_append_of_none, ← join, ModifierValue.string?]
          onFail := by rw [lastValue?_append_of_ne rfl, h.onFail]
          count := by rw [lastValue?_append_of_ne rfl, h.count] }
    · cases step
  · next key =>
    have keys (value : ModifierValue) :
        p.keys ++ [key] = (ms ++ [Modifier.mk key value span]).filterMap Modifier.key := by
      simp [h.keys]
    have join (value : ModifierValue) : p.join.toList.map some
        = (plainValues (ms ++ [Modifier.mk key value span])).map ModifierValue.string? := by
      rw [plainValues_append_of_some rfl, h.join]
    split at step
    · next s word =>
      cases step
      exact
        { keys := keys _
          join := join _
          known := forall_mem_snoc h.known (.inl word)
          onFail := by rw [lastValue?_append_of_eq rfl word]; rfl
          count := by rw [lastValue?_append_of_ne (by simp [word]), h.count] }
    · cases step
    · next digits word =>
      obtain ⟨n, counts, step⟩ := except_bind step
      cases step
      exact
        { keys := keys _
          join := join _
          known := forall_mem_snoc h.known (.inr word)
          onFail := by rw [lastValue?_append_of_ne (by simp [word]), h.onFail]
          count := by
            rw [lastValue?_append_of_eq rfl word]
            exact (ModifierValue.count?_number counts).symm }
    · cases step
    · cases step

/-- Of modifiers with the same key a parallel block has the last. -/
theorem takesLast_withModifiers (start : p.TakesLast []) (h : p.withModifiers ms = .ok p') :
    p'.TakesLast ms :=
  foldlM_induction (P := fun _ ↦ True) (R := fun done p ↦ p.TakesLast done)
    (fun _ _ _ _ _ taken step ↦ taken.withModifier step) start (fun _ _ ↦ trivial) h

end ParallelOf

namespace LoopOf

variable {l l' : Loop} {ms : List Modifier} {m : Modifier}

private theorem TakesLast.withModifier (h : l.TakesLast ms) (step : l.withModifier m = .ok l') :
    l'.TakesLast (ms ++ [m]) := by
  obtain ⟨key, value, span⟩ := m
  unfold LoopOf.withModifier at step
  dsimp only at step
  split at step
  · cases step
  · split at step
    · next key digits word =>
      obtain ⟨n, counts, step⟩ := except_bind step
      cases step
      exact
        { keys := by simp [h.keys]
          known := forall_mem_snoc h.known word
          plain := by rw [plainValues_append_of_some rfl, h.plain]
          max := by
            rw [lastValue?_append_of_eq rfl word]
            exact (ModifierValue.count?_number counts).symm }
    · cases step
    · cases step

/-- Of modifiers with the same key a loop has the last. -/
theorem takesLast_withModifiers (start : l.TakesLast []) (h : l.withModifiers ms = .ok l') :
    l'.TakesLast ms :=
  foldlM_induction (P := fun _ ↦ True) (R := fun done l ↦ l.TakesLast done)
    (fun _ _ _ _ _ taken step ↦ taken.withModifier step) start (fun _ _ ↦ trivial) h

end LoopOf

end ProseLang
