import ProseLang.Proofs.Grammar.Made

/-!
# Sessions and agents that are made from properties

What becomes a setting holds nothing that a reserved word can start, so no such word is lost where a
session or an agent is built from its properties (`SessionText.made`, `AgentText.made`).
-/

namespace ProseLang

/-- Whether no reserved word belongs to any of some parts. -/
def OwnNothing (vs : List Visit) : Prop := ∀ v ∈ vs, ∀ t, ¬ v.Owns t

private theorem ownNothing_string (s : StringLit) :
    OwnNothing ((Expr.string s).visits everywhere) := by
  simp [OwnNothing, Visit.Owns]

private theorem ownNothing_of_modelName? {e : Expr} {m : Ident} (h : e.modelName? = some m) :
    OwnNothing (e.visits everywhere) := by
  cases e with
  | ident name => simp [OwnNothing, Visit.Owns]
  | string s => exact ownNothing_string s
  | _ => cases h

private theorem ownNothing_of_skillNames? {e : Expr} {xs : List Ident}
    (h : e.skillNames? = some xs) : OwnNothing (e.visits everywhere) := by
  cases e with
  | array a =>
    obtain ⟨items, span⟩ := a
    have flat : OwnNothing (valueVisits everywhere items) := by
      change items.mapM Expr.quoted? = some xs at h
      clear span
      induction items generalizing xs with
      | nil => exact nofun
      | cons e items ih =>
        rw [List.mapM_cons] at h
        obtain ⟨first, here, h⟩ := Option.bind_eq_some_iff.1 h
        obtain ⟨others, there, h⟩ := Option.bind_eq_some_iff.1 h
        refine List.forall_mem_append.2 ⟨?_, ih there⟩
        cases e with
        | string s => exact ownNothing_string s
        | _ => cases here
    exact List.forall_mem_cons.2 ⟨fun _ ↦ id, flat⟩
  | _ => cases h

/-- What a step of a fold that comes to an end has shown for each item. -/
theorem forall_mem_of_foldlM {α β ε : Type} {f : α → β → Except ε α} {P : β → Prop} {a a' : α}
    {bs : List β} (step : ∀ a b a', f a b = .ok a' → P b) (run : bs.foldlM f a = .ok a') :
    ∀ b ∈ bs, P b :=
  foldlM_induction (P := fun _ ↦ True) (R := fun done _ ↦ ∀ b ∈ done, P b)
    (fun _ a b a' _ shown run ↦ forall_mem_snoc shown (step a b a' run)) nofun
      (fun _ _ ↦ trivial) run

/-! ## Sessions -/

namespace SessionOf

variable {s s' : Session} {p : Property}

/-- A property that becomes a setting of a session. -/
theorem withKnown?_settles (h : s.withKnown? p = .ok (some s')) :
    OwnNothing (p.value.visits everywhere)
      ∧ (s'.context = s.context ∨ p.value = .context s'.context) := by
  obtain ⟨key, value, span⟩ := p
  unfold withKnown? at h
  dsimp only at h ⊢
  split at h
  · rw [eq_of_setOnce_bind h]
    exact ⟨by simp [OwnNothing, Visit.Owns], .inl rfl⟩
  · cases h
  · split at h
    · next model named =>
      rw [eq_of_setOnce_bind h]
      exact ⟨ownNothing_of_modelName? named, .inl rfl⟩
    · cases h
  · rw [eq_of_setOnce_bind h]
    exact ⟨ownNothing_string _, .inl rfl⟩
  · cases h
  · split at h
    · next skills named =>
      rw [eq_of_setOnce_bind h]
      exact ⟨ownNothing_of_skillNames? named, .inl rfl⟩
    · cases h
  · split at h
    · cases h
      exact ⟨by simp [OwnNothing, Visit.Owns], .inr rfl⟩
    · cases h
  · obtain ⟨n, -, h⟩ := except_bind h
    rw [eq_of_setOnce_bind h]
    exact ⟨by simp [OwnNothing, Visit.Owns], .inl rfl⟩
  · cases h
  · rw [eq_of_setOnce_bind h]
    exact ⟨ownNothing_string _, .inl rfl⟩
  · cases h
  · cases h

/-- A session with one more property: what becomes a setting is lost as a part. -/
theorem withProperty_settles (h : s.withProperty p = .ok s') :
    (p.isSessionSetting = true → OwnNothing (p.value.visits everywhere))
      ∧ (s'.context = s.context ∨ p.value = .context s'.context) := by
  obtain ⟨known, run, h⟩ := except_bind h
  rw [← isSome_withKnown? run]
  cases known with
  | some next =>
    cases h
    obtain ⟨nothing, context⟩ := withKnown?_settles run
    exact ⟨fun _ ↦ nothing, context⟩
  | none =>
    cases h
    exact ⟨nofun, .inl rfl⟩

/-- Modifiers are no context. -/
theorem context_withModifier {m : Modifier} (h : s.withModifier m = .ok s') :
    s'.context = s.context := by
  obtain ⟨key, value, span⟩ := m
  cases key with
  | none => cases h
  | some key =>
    unfold withModifier at h
    dsimp only at h
    split at h
    · obtain ⟨n, -, h⟩ := except_bind h
      obtain ⟨retry, -, h⟩ := except_bind h
      cases h
      rfl
    · obtain ⟨backoff, -, h⟩ := except_bind h
      cases h
      rfl
    · cases h
    · cases h
    · cases h

end SessionOf

namespace SessionText

variable {clean : Prop} {ts words : List Token} {text : SessionText} {s : Session}

/-- The context of a session is one of its properties, if it is written. -/
theorem context_of_build (h : text.build = .ok s) :
    s.context = .implicit ∨ ∃ p ∈ text.properties, p.value = .context s.context := by
  obtain ⟨modified, modifiers, h⟩ := except_bind h
  obtain ⟨whole, properties, h⟩ := except_bind h
  cases h
  have before : modified.context = .implicit :=
    foldlM_keeps (f := SessionOf.withModifier) (P := fun _ ↦ True)
      (Q := fun s ↦ s.context = .implicit)
      (fun _ _ _ same _ step ↦ (SessionOf.context_withModifier step).trans same) rfl
      (fun _ _ ↦ trivial) modifiers
  have start : (modified.withShorthand text.agent).context = .implicit := by
    cases text.agent <;> exact before
  change whole.context = .implicit ∨ ∃ p ∈ text.properties, p.value = .context whole.context
  refine foldlM_induction (f := SessionOf.withProperty) (P := fun _ ↦ True)
    (R := fun done s ↦ s.context = .implicit ∨ ∃ p ∈ done, p.value = .context s.context)
    (fun done s p s' _ before step ↦ ?_) (.inl start) (fun _ _ ↦ trivial) properties
  rcases (SessionOf.withProperty_settles step).2 with same | here
  · rw [same]
    exact before.imp_right fun ⟨q, hq, given⟩ ↦ ⟨q, List.mem_append_left _ hq, given⟩
  · exact .inr ⟨p, List.mem_append_right _ List.mem_cons_self, here⟩

/-- What becomes a setting of a session holds nothing else. -/
theorem ownNothing_of_build (h : text.build = .ok s) :
    ∀ p ∈ text.properties, p.isSessionSetting = true → OwnNothing (p.value.visits everywhere) := by
  obtain ⟨modified, modifiers, h⟩ := except_bind h
  obtain ⟨whole, properties, h⟩ := except_bind h
  exact forall_mem_of_foldlM (f := SessionOf.withProperty)
    (fun _ _ _ step ↦ (SessionOf.withProperty_settles step).1) properties

/-- A session that is built from what is written, up to the arrow after it. -/
theorem made {depth : Nat} {pipes : Bool} {first : Span} (h : text.build = .ok s)
    (read : ReadIn ts (Parser.sessionText (.upTo depth) pipes) text)
    (starts : text.span.start = first.start)
    (parts : Made clean ts (propertyVisits everywhere text.properties) words)
    (arrow : Option Span) :
    Made clean ts ((Expr.action (.session { s with arrow })).visits everywhere)
      (⟨.keyword .session, first⟩ :: words) := by
  have explicit : ∀ p ∈ text.properties, p.value ≠ .context .implicit := fun p hp ↦
    parts.written _ (mem_propertyVisits_iff.2 ⟨p, hp, .inl rfl⟩)
  obtain ⟨once, keys, others, span⟩ := settings_of_build explicit h
  have visits : (Expr.action (.session { s with arrow })).visits everywhere
      = .action (.session { s with arrow })
        :: (Visit.strings s.prompt ++ .context s.context :: propertyVisits everywhere
          s.properties) := rfl
  rw [visits]
  refine parts.regroup ⟨depth, pipes, text, read, span.symm, keys.symm, once⟩ rfl
    (.inl ⟨rfl, by rw [← starts, ← span]⟩) (List.forall_mem_append.2 ⟨fun v hv ↦ ?_,
      List.forall_mem_cons.2 ⟨?_, fun v hv ↦ ?_⟩⟩) fun v hv t owns ↦ ?_
  · have plain : Made True ts (Visit.strings s.prompt) [] := .strings s.prompt
    exact .inr ⟨plain.written v hv, plain.complete trivial v hv⟩
  · rcases context_of_build h with none | ⟨p, hp, given⟩
    · exact .inr ⟨trivial, by rw [none]; rfl⟩
    · refine .inl (mem_propertyVisits_iff.2 ⟨p, hp, .inr ?_⟩)
      rw [given]
      exact List.mem_cons_self
  · obtain ⟨p, hp, within⟩ := mem_propertyVisits_iff.1 hv
    exact .inl (mem_propertyVisits_iff.2 ⟨p, (List.mem_filter.1 (others ▸ hp)).1, within⟩)
  · obtain ⟨p, hp, within⟩ := mem_propertyVisits_iff.1 hv
    cases known : p.isSessionSetting with
    | false =>
      have other : p ∈ s.properties := others ▸ List.mem_filter.2 ⟨hp, by rw [known]; rfl⟩
      have stays := mem_propertyVisits_iff.2 ⟨p, other, within⟩
      exact ⟨v, List.mem_cons_of_mem _ (List.mem_append_right _
        (List.mem_cons_of_mem _ stays)), owns⟩
    | true =>
      rcases within with rfl | within
      · have key : p.key ∈ s.keys := by
          rw [keys]
          exact List.mem_append_right _ (List.mem_map_of_mem (List.mem_filter.2 ⟨hp, known⟩))
        exact ⟨_, List.mem_cons_self, .inr (owns ▸ List.mem_map_of_mem key)⟩
      · exact absurd owns (ownNothing_of_build h p hp known v within t)

end SessionText

/-! ## Agents -/

namespace AgentOf

variable {a a' : Agent} {p : Property}

/-- Whether a property of an agent is a setting with nothing in it or the group of permissions. -/
def Settles (a : Agent) (p : Property) : Prop :=
  OwnNothing (p.value.visits everywhere) ∨ ∃ group, p.value = .nested group
    ∧ a.permissions = some group

/-- A property that becomes a setting of an agent. -/
theorem withKnown?_settles (h : a.withKnown? p = .ok (some a')) :
    a'.Settles p ∧ (a'.permissions = a.permissions
      ∨ a.permissions = none ∧ ∃ group, p.value = .nested group ∧ a'.permissions = some group) := by
  obtain ⟨key, value, span⟩ := p
  unfold withKnown? at h
  dsimp only [Settles] at h ⊢
  split at h
  · split at h
    · next model named =>
      rw [eq_of_setOnce_bind h]
      exact ⟨.inl (ownNothing_of_modelName? named), .inl rfl⟩
    · cases h
  · rw [eq_of_setOnce_bind h]
    exact ⟨.inl (ownNothing_string _), .inl rfl⟩
  · cases h
  · split at h
    · cases h
    · split at h
      · next skills named =>
        cases h
        exact ⟨.inl (ownNothing_of_skillNames? named), .inl rfl⟩
      · cases h
  · next group word =>
    obtain ⟨free, rfl⟩ := of_setOnce_bind h
    exact ⟨.inr ⟨group, rfl, rfl⟩, .inr ⟨free, group, rfl, rfl⟩⟩
  · cases h
  · cases h

/-- An agent with one more property. -/
theorem withProperty_settles (h : a.withProperty p = .ok a') :
    (p.isAgentSetting = true → a'.Settles p) ∧ (a'.permissions = a.permissions
      ∨ a.permissions = none ∧ ∃ group, p.value = .nested group ∧ a'.permissions = some group) := by
  obtain ⟨known, run, h⟩ := except_bind h
  rw [← isSome_withKnown? run]
  cases known with
  | some next =>
    cases h
    obtain ⟨settles, permissions⟩ := withKnown?_settles run
    exact ⟨fun _ ↦ settles, permissions⟩
  | none =>
    cases h
    exact ⟨nofun, .inl rfl⟩

/-- What was settled before stays so. -/
theorem Settles.keep {q : Property} (h : a.Settles q)
    (step : a'.permissions = a.permissions
      ∨ a.permissions = none ∧ ∃ group, p.value = .nested group ∧ a'.permissions = some group) :
    a'.Settles q := by
  refine h.imp_right fun ⟨group, given, set⟩ ↦ ⟨group, given, ?_⟩
  rcases step with same | ⟨free, -⟩
  · rw [same, set]
  · rw [free] at set
    cases set

end AgentOf

namespace AgentText

variable {clean : Prop} {ts words : List Token} {text : AgentText} {a : Agent}

/-- What becomes a setting of an agent is among its permissions or holds nothing else, and its
permissions are one of its properties. -/
theorem settles_of_build (h : text.build = .ok a) :
    (∀ p ∈ text.properties, p.isAgentSetting = true → a.Settles p)
      ∧ ∀ group ∈ a.permissions, ∃ p ∈ text.properties, p.value = .nested group := by
  obtain ⟨whole, run, h⟩ := except_bind h
  cases h
  change (∀ p ∈ text.properties, p.isAgentSetting = true → whole.Settles p)
      ∧ ∀ group ∈ whole.permissions, ∃ p ∈ text.properties, p.value = .nested group
  refine foldlM_induction (f := AgentOf.withProperty) (P := fun _ ↦ True)
    (R := fun done a ↦ (∀ p ∈ done, p.isAgentSetting = true → a.Settles p)
      ∧ ∀ group ∈ a.permissions, ∃ p ∈ done, p.value = .nested group)
    (fun done a p a' _ before step ↦ ?_)
    ⟨fun _ hp ↦ absurd hp List.not_mem_nil, fun _ hgroup ↦ absurd hgroup (Option.not_mem_none _)⟩
    (fun _ _ ↦ trivial) run
  obtain ⟨settles, permissions⟩ := AgentOf.withProperty_settles step
  refine ⟨forall_mem_snoc (fun q hq known ↦ (before.1 q hq known).keep permissions) settles,
    fun group hgroup ↦ ?_⟩
  rcases permissions with same | ⟨-, here, given, set⟩
  · obtain ⟨q, hq, given⟩ := before.2 group (same ▸ hgroup)
    exact ⟨q, List.mem_append_left _ hq, given⟩
  · rw [set] at hgroup
    cases hgroup
    exact ⟨p, List.mem_append_right _ List.mem_cons_self, given⟩

/-- An agent that is built from what is written. -/
theorem made {depth : Nat} {pipes : Bool} {first : Span} (h : text.build = .ok a)
    (read : ReadIn ts (Parser.agentText (.upTo depth) pipes) text)
    (starts : text.span.start = first.start)
    (parts : Made clean ts (propertyVisits everywhere text.properties) words) :
    Made clean ts (bodyVisits everywhere [.agent a]) (⟨.keyword .agent, first⟩ :: words) := by
  obtain ⟨once, keys, others, span⟩ := settings_of_build h
  obtain ⟨settles, permissions⟩ := settles_of_build h
  have visits : bodyVisits everywhere [.agent a]
      = .statement (.agent a) :: (Visit.strings a.prompt ++ permissionVisits everywhere
        a.permissions ++ propertyVisits everywhere a.properties ++ [.statementEnd]) := rfl
  rw [visits]
  refine parts.regroup ⟨depth, pipes, text, read, span.symm, keys.symm, once⟩ rfl
    (.inl ⟨rfl, by rw [← starts, ← span]⟩) ?_ fun v hv t owns ↦ ?_
  · refine List.forall_mem_append.2 ⟨List.forall_mem_append.2 ⟨List.forall_mem_append.2
      ⟨fun v hv ↦ ?_, fun v hv ↦ ?_⟩, fun v hv ↦ ?_⟩,
        List.forall_mem_singleton.2 (.inr ⟨trivial, rfl⟩)⟩
    · have plain : Made True ts (Visit.strings a.prompt) [] := .strings a.prompt
      exact .inr ⟨plain.written v hv, plain.complete trivial v hv⟩
    · cases set : a.permissions with
      | none =>
        rw [set] at hv
        cases hv
      | some group =>
        obtain ⟨p, hp, given⟩ := permissions group set
        rw [set] at hv
        exact .inl (mem_propertyVisits_iff.2 ⟨p, hp, .inr (given ▸ hv)⟩)
    · obtain ⟨p, hp, within⟩ := mem_propertyVisits_iff.1 hv
      exact .inl (mem_propertyVisits_iff.2 ⟨p, (List.mem_filter.1 (others ▸ hp)).1, within⟩)
  · obtain ⟨p, hp, within⟩ := mem_propertyVisits_iff.1 hv
    cases known : p.isAgentSetting with
    | false =>
      have other : p ∈ a.properties := others ▸ List.mem_filter.2 ⟨hp, by rw [known]; rfl⟩
      have stays := mem_propertyVisits_iff.2 ⟨p, other, within⟩
      exact ⟨v, List.mem_cons_of_mem _ (List.mem_append_left _
        (List.mem_append_right _ stays)), owns⟩
    | true =>
      rcases within with rfl | within
      · have key : p.key ∈ a.keys := by
          rw [keys]
          exact List.mem_map_of_mem (List.mem_filter.2 ⟨hp, known⟩)
        exact ⟨_, List.mem_cons_self, .inr (owns ▸ List.mem_map_of_mem key)⟩
      · rcases settles p hp known with nothing | ⟨group, given, set⟩
        · exact absurd owns (nothing v within t)
        · have stays : v ∈ permissionVisits everywhere a.permissions := by
            rw [set]
            rwa [given] at within
          exact ⟨v, List.mem_cons_of_mem _ (List.mem_append_left _ (List.mem_append_left _
            (List.mem_append_right _ stays))), owns⟩

end AgentText

end ProseLang
