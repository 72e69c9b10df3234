import ProseLang.Grammar.Statement
import ProseLang.Proofs.Program.Leaves

/-!
# What settings are made of

Sessions, agents and the headers of blocks are built from properties and modifiers one after the
other. A property of leaves that a value keeps when it becomes a setting (`Leaf.Settable`) holds of
what is built as soon as it holds of what the properties and modifiers show (`PropertyOf.Shows`,
`Modifier.Has`), whatever else is known of them. There is one lemma for each step.
-/

namespace ProseLang

/-! ## Steps that may fail -/

/-- What a step that may fail gives at the end, given what its first part gives. -/
theorem except_bind {α β ε : Type} {r : Except ε α} {k : α → Except ε β} {y : β}
    (h : (r >>= k) = .ok y) : ∃ x, r = .ok x ∧ k x = .ok y := by
  cases r with
  | error e => cases h
  | ok x => exact ⟨x, rfl, h⟩

/-- A slot that is set once holds the value. -/
theorem setOnce_eq_ok {α : Type} {slot r : Option α} {key : Ident} {value : α}
    (h : setOnce slot key value = .ok r) : r = some value := by
  cases slot with
  | none => exact (Except.ok.inj h).symm
  | some old => cases h

/-- What is built with a setting is built with the value that it is set to. -/
theorem eq_of_setOnce_bind {α β : Type} {slot : Option α} {key : Ident} {value : α}
    {build : Option α → β} {y : β}
    (h : (setOnce slot key value >>= fun v ↦ pure (some (build v))) = .ok (some y)) :
    y = build (some value) := by
  obtain ⟨v, once, h⟩ := except_bind h
  obtain rfl := setOnce_eq_ok once
  exact (Option.some.inj (Except.ok.inj h)).symm

/-- A step that keeps a property of what is built keeps it over a list. -/
theorem foldlM_keeps {α β ε : Type} {f : β → α → Except ε β} {P : α → Prop} {Q : β → Prop}
    (h : ∀ b a b', Q b → P a → f b a = .ok b' → Q b') {xs : List α} {b b' : β} (hb : Q b)
    (hxs : ∀ a ∈ xs, P a) (run : xs.foldlM f b = .ok b') : Q b' := by
  induction xs generalizing b with
  | nil =>
    obtain rfl : b = b' := Except.ok.inj run
    exact hb
  | cons a xs ih =>
    obtain ⟨next, first, rest⟩ := except_bind run
    obtain ⟨ha, hxs⟩ := List.forall_mem_cons.1 hxs
    exact ih (h b a next hb ha first) hxs rest

/-- What comes out of a list of values comes out of one of them. -/
theorem exists_of_mem_mapM {α β : Type} {f : α → Option β} {xs : List α} {ys : List β} {y : β}
    (h : xs.mapM f = some ys) (hy : y ∈ ys) : ∃ x ∈ xs, f x = some y := by
  induction xs generalizing ys with
  | nil =>
    obtain rfl : [] = ys := Option.some.inj h
    cases hy
  | cons x xs ih =>
    rw [List.mapM_cons] at h
    obtain ⟨first, here, h⟩ := Option.bind_eq_some_iff.1 h
    obtain ⟨others, there, h⟩ := Option.bind_eq_some_iff.1 h
    obtain rfl : first :: others = ys := Option.some.inj h
    rcases List.mem_cons.1 hy with rfl | hy
    · exact ⟨x, List.mem_cons_self, here⟩
    · obtain ⟨z, hz, found⟩ := ih there hy
      exact ⟨z, List.mem_cons_of_mem x hz, found⟩

/-- The keys with one more. -/
theorem forall_mem_snoc {α : Type} {P : α → Prop} {xs : List α} {x : α} (hxs : ∀ y ∈ xs, P y)
    (hx : P x) : ∀ y ∈ xs ++ [x], P y := by
  intro y hy
  rcases List.mem_append.1 hy with hy | hy
  · exact hxs y hy
  · obtain rfl := List.mem_singleton.1 hy
    exact hx

/-! ## What is shown -/

/-- Whether a property of leaves is kept where a value becomes a setting. -/
structure Leaf.Settable (L : Leaf → Prop) : Prop where
  quoted : ∀ {s : StringLit}, L (.string s) → L (.quoted ⟨s.value, s.span⟩)
  named : ∀ {x : Ident}, L (.name x) → L (.model x)
  model : ∀ {x : Ident}, L (.quoted x) → L (.model x)
  count : ∀ {digits n}, L (.numeral digits) → Parser.countOf digits = .ok n → L (.count n)

section

variable {L : Leaf → Prop}

variable (L) in
/-- Whether what a property shows to a session or an agent has a property of leaves. -/
structure PropertyOf.Shows (p : Property) : Prop where
  key : L (.key p.key)
  name : ∀ x, p.value = .expr (.ident x) → L (.name x)
  string : ∀ s, p.value = .expr (.string s) → L (.string s)
  numeral : ∀ n, p.value = .expr (.number n) → L (.numeral n)
  items : ∀ a, p.value = .expr (.array a) → ∀ s, .string s ∈ a.items → L (.string s)
  context : ∀ c, p.value = .context c → ∀ x ∈ c.names, L (.name x)

variable (L) in
/-- Whether the leaves of a modifier have a property. -/
structure Modifier.Has (m : Modifier) : Prop where
  key : ∀ x ∈ m.key, L (.key x)
  string : ∀ s, m.value = .string s → L (.string s)
  number : ∀ digits, m.value = .number digits → L (.numeral digits)

/-- A property shows its key and its value. -/
theorem PropertyOf.Has.shows {p : Property} (h : p.Has L) : p.Shows L := by
  obtain ⟨key, value⟩ := h
  refine ⟨key, ?_, ?_, ?_, ?_, ?_⟩
  · intro x eq
    exact has_expr_ident.1 (has_property_expr.1 (eq ▸ value))
  · intro s eq
    exact has_expr_string.1 (has_property_expr.1 (eq ▸ value))
  · intro n eq
    exact has_expr_number.1 (has_property_expr.1 (eq ▸ value))
  · intro a eq s hs
    exact has_expr_string.1 (has_expr_array.1 (has_property_expr.1 (eq ▸ value)) _ hs)
  · intro c eq
    exact has_property_context.1 (eq ▸ value)

namespace PropertyOf.Shows

variable {p : Property} {e : Expr} (hL : Leaf.Settable L) (hp : p.Shows L) (hv : p.value = .expr e)
include hL hp hv

private theorem model {m : Ident} (named : e.modelName? = some m) : L (.model m) := by
  cases e with
  | ident name =>
    obtain rfl : name = m := Option.some.inj named
    exact hL.named (hp.name name hv)
  | string s =>
    obtain rfl : ⟨s.value, s.span⟩ = m := Option.some.inj named
    exact hL.model (hL.quoted (hp.string s hv))
  | _ => cases named

private theorem skills {xs : List Ident} (named : e.skillNames? = some xs) :
    ∀ x ∈ xs, L (.quoted x) := by
  cases e with
  | array a =>
    intro x hx
    obtain ⟨item, member, quoted⟩ := exists_of_mem_mapM named hx
    cases item with
    | string s =>
      obtain rfl : ⟨s.value, s.span⟩ = x := Option.some.inj quoted
      exact hL.quoted (hp.items a hv s member)
    | _ => cases quoted
  | _ => cases named

end PropertyOf.Shows

/-! ## Sessions -/

section Session

variable {s s' : Session} {p : Property} {m : Modifier} (hL : Leaf.Settable L)
include hL

/-- A session with one more modifier. -/
theorem session_withModifier_sets (hs : s.Sets L) (hm : m.Has L) (h : s.withModifier m = .ok s') :
    s'.Sets L ∧ s'.properties = s.properties := by
  obtain ⟨key, value, span⟩ := m
  cases key with
  | none => cases h
  | some key =>
    have withKey {next : Session} (kept : next.Sets L) :
        SessionOf.Sets L { next with keys := next.keys ++ [key] } :=
      { kept with keys := forall_mem_snoc kept.keys (hm.key key rfl) }
    unfold SessionOf.withModifier at h
    dsimp only at h
    split at h
    · next digits _ =>
      obtain ⟨n, counts, h⟩ := except_bind h
      obtain ⟨retry, once, h⟩ := except_bind h
      obtain rfl := Except.ok.inj h
      obtain rfl := setOnce_eq_ok once
      refine ⟨withKey { hs with retry := ?_ }, rfl⟩
      rintro _ ⟨⟩
      exact hL.count (hm.number digits rfl) counts
    · next strategy _ =>
      obtain ⟨backoff, once, h⟩ := except_bind h
      obtain rfl := Except.ok.inj h
      obtain rfl := setOnce_eq_ok once
      refine ⟨withKey { hs with backoff := ?_ }, rfl⟩
      rintro _ ⟨⟩
      exact hL.quoted (hm.string strategy rfl)
    · cases h
    · cases h
    · cases h

/-- A session with a property that sessions have. -/
theorem session_withKnown?_sets (hs : s.Sets L) (hp : p.Shows L)
    (h : s.withKnown? p = .ok (some s')) : s'.Sets L ∧ s'.properties = s.properties := by
  obtain ⟨key, value, span⟩ := p
  unfold SessionOf.withKnown? at h
  dsimp only at h
  split at h
  · obtain rfl := eq_of_setOnce_bind h
    refine ⟨{ hs with agent := ?_ }, rfl⟩
    rintro _ ⟨⟩
    exact hp.name _ rfl
  · cases h
  · split at h
    · next named =>
      obtain rfl := eq_of_setOnce_bind h
      refine ⟨{ hs with model := ?_ }, rfl⟩
      rintro _ ⟨⟩
      exact hp.model hL rfl named
    · cases h
  · obtain rfl := eq_of_setOnce_bind h
    refine ⟨{ hs with prompt := ?_ }, rfl⟩
    rintro _ ⟨⟩
    exact hp.string _ rfl
  · cases h
  · split at h
    · next named =>
      obtain rfl := eq_of_setOnce_bind h
      refine ⟨{ hs with skills := ?_ }, rfl⟩
      rintro _ ⟨⟩
      exact hp.skills hL rfl named
    · cases h
  · split at h
    · obtain rfl := Option.some.inj (Except.ok.inj h)
      exact ⟨{ hs with context := hp.context _ rfl }, rfl⟩
    · cases h
  · obtain ⟨n, counts, h⟩ := except_bind h
    obtain rfl := eq_of_setOnce_bind h
    refine ⟨{ hs with retry := ?_ }, rfl⟩
    rintro _ ⟨⟩
    exact hL.count (hp.numeral _ rfl) counts
  · cases h
  · obtain rfl := eq_of_setOnce_bind h
    refine ⟨{ hs with backoff := ?_ }, rfl⟩
    rintro _ ⟨⟩
    exact hL.quoted (hp.string _ rfl)
  · cases h
  · cases h

/-- A session with one more property: it is a setting, or it is kept as it is. -/
theorem session_withProperty_sets (hs : s.Sets L) (hp : p.Shows L)
    (h : s.withProperty p = .ok s') :
    s'.Sets L ∧ ∀ q ∈ s'.properties, q ∈ s.properties ∨ q = p := by
  obtain ⟨known, run, h⟩ := except_bind h
  cases known with
  | some next =>
    obtain rfl := Except.ok.inj h
    obtain ⟨kept, same⟩ := session_withKnown?_sets hL hs hp run
    exact ⟨{ kept with keys := forall_mem_snoc kept.keys hp.key }, fun q hq ↦ .inl (same ▸ hq)⟩
  | none =>
    obtain rfl := Except.ok.inj h
    exact ⟨{ hs with }, fun q hq ↦ by simpa using hq⟩

end Session

/-! ## Agents -/

section Agent

variable {a a' : Agent} {p : Property} (hL : Leaf.Settable L)
include hL

/-- An agent with a property that agents have. -/
theorem agent_withKnown?_sets (ha : a.Sets L) (hp : p.Shows L)
    (h : a.withKnown? p = .ok (some a')) :
    a'.Sets L ∧ a'.properties = a.properties
      ∧ ∀ group ∈ a'.permissions, group ∈ a.permissions ∨ p.value = .nested group := by
  obtain ⟨key, value, span⟩ := p
  unfold AgentOf.withKnown? at h
  dsimp only at h
  split at h
  · split at h
    · next named =>
      obtain rfl := eq_of_setOnce_bind h
      refine ⟨{ ha with model := ?_ }, rfl, fun _ ↦ .inl⟩
      rintro _ ⟨⟩
      exact hp.model hL rfl named
    · cases h
  · obtain rfl := eq_of_setOnce_bind h
    refine ⟨{ ha with prompt := ?_ }, rfl, fun _ ↦ .inl⟩
    rintro _ ⟨⟩
    exact hp.string _ rfl
  · cases h
  · split at h
    · cases h
    · split at h
      · next named =>
        obtain rfl := Option.some.inj (Except.ok.inj h)
        exact ⟨{ ha with skills := hp.skills hL rfl named }, rfl, fun _ ↦ .inl⟩
      · cases h
  · obtain rfl := eq_of_setOnce_bind h
    refine ⟨{ ha with }, rfl, ?_⟩
    rintro _ ⟨⟩
    exact .inr rfl
  · cases h
  · cases h

/-- An agent with one more property: it is a setting, or the permissions, or it is kept as it is. -/
theorem agent_withProperty_sets (ha : a.Sets L) (hp : p.Shows L) (h : a.withProperty p = .ok a') :
    a'.Sets L ∧ (∀ q ∈ a'.properties, q ∈ a.properties ∨ q = p)
      ∧ ∀ group ∈ a'.permissions, group ∈ a.permissions ∨ p.value = .nested group := by
  obtain ⟨known, run, h⟩ := except_bind h
  cases known with
  | some next =>
    obtain rfl := Except.ok.inj h
    obtain ⟨kept, same, permissions⟩ := agent_withKnown?_sets hL ha hp run
    refine ⟨{ kept with keys := forall_mem_snoc kept.keys hp.key }, fun q hq ↦ ?_, permissions⟩
    exact .inl (same ▸ hq)
  | none =>
    obtain rfl := Except.ok.inj h
    exact ⟨{ ha with }, fun q hq ↦ by simpa using hq, fun _ ↦ .inl⟩

end Agent

/-! ## Headers -/

section Headers

variable {m : Modifier} (hL : Leaf.Settable L)
include hL

/-- A parallel block with one more modifier. -/
theorem parallel_withModifier_has {p p' : Parallel} (hp : (Statement.parallel p).Has L)
    (hm : m.Has L) (h : p.withModifier m = .ok p') : (Statement.parallel p').Has L := by
  obtain ⟨⟨join, onFail, count, keys⟩, body⟩ := has_parallel.1 hp
  unfold ParallelOf.withModifier at h
  split at h
  · split at h
    · next s none written =>
      obtain rfl := Except.ok.inj h
      refine has_parallel.2 ⟨⟨?_, onFail, count, keys⟩, body⟩
      rintro _ ⟨⟩
      exact hL.quoted (hm.string s written)
    · cases h
  · next value key hkey =>
    split at h
    · next s _ written =>
      obtain rfl := Except.ok.inj h
      refine has_parallel.2 ⟨⟨join, ?_, count, forall_mem_snoc keys (hm.key key hkey)⟩, body⟩
      rintro _ ⟨⟩
      exact hL.quoted (hm.string s written)
    · cases h
    · next digits _ written =>
      obtain ⟨n, counts, h⟩ := except_bind h
      obtain rfl := Except.ok.inj h
      refine has_parallel.2 ⟨⟨join, onFail, ?_, forall_mem_snoc keys (hm.key key hkey)⟩, body⟩
      rintro _ ⟨⟩
      exact hL.count (hm.number digits written) counts
    · cases h
    · cases h

/-- A loop with one more modifier. -/
theorem loop_withModifier_has {l l' : Loop} (hl : (Statement.loop l).Has L) (hm : m.Has L)
    (h : l.withModifier m = .ok l') : (Statement.loop l').Has L := by
  obtain ⟨condition, ⟨maxIterations, index, keys⟩, body⟩ := has_loop.1 hl
  unfold LoopOf.withModifier at h
  split at h
  · cases h
  · next value key hkey =>
    split at h
    · next digits _ written =>
      obtain ⟨n, counts, h⟩ := except_bind h
      obtain rfl := Except.ok.inj h
      refine has_loop.2 ⟨condition, ⟨?_, index, forall_mem_snoc keys (hm.key key hkey)⟩, body⟩
      rintro _ ⟨⟩
      exact hL.count (hm.number digits written) counts
    · cases h
    · cases h

end Headers

end

end ProseLang
