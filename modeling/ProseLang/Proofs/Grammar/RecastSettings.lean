import ProseLang.Proofs.Program.Recast

/-!
# Settings and their places

Modifiers and properties are set on a session, an agent, a parallel block or a loop one after the
other. Setting them commutes with any change of places (`recast`), so it comes to the same for
values that are alike.
-/

namespace ProseLang

section Slots

variable {α β : Type} [Recastable α] [Recastable β] (r : Recast)

private theorem setOnce_recast (slot : Option α) (key : Ident) (value : α) :
    setOnce (recast r slot) (recast r key) (recast r value) = recast r
    (setOnce slot key value) := by
  cases slot <;> rfl

/-- The number that digits stand for does not depend on their place. -/
theorem countOf_recast (digits : Located String) :
    Parser.countOf (recast r digits) = recast r (Parser.countOf digits) := by
  simp only [Parser.countOf, val_recast]
  cases (wholeNumber? digits.val.toList).filter (· ≤ Parser.maxCount) <;> rfl

variable {r}

private theorem bind_recast {x x' : Except ParseError α} {f f' : α → Except ParseError β}
    (hx : x' = recast r x) (hf : ∀ y, f' (recast r y) = recast r (f y)) :
    (x' >>= f') = recast r (x >>= f) := by
  subst hx
  cases x with
  | ok y => exact hf y
  | error => rfl

private theorem foldlM_recast {f : α → β → Except ParseError α}
    (hf : ∀ x y, f (recast r x) (recast r y) = recast r (f x y)) (x : α) (ys : List β) :
    (recast r ys).foldlM f (recast r x) = recast r (ys.foldlM f x) := by
  induction ys generalizing x with
  | nil => rfl
  | cons y ys ih =>
    rw [recast_cons, List.foldlM_cons, List.foldlM_cons, hf]
    cases f x y with
    | ok z => exact ih z
    | error => rfl

end Slots

variable (r : Recast)

/-! ## Values of settings -/

private theorem modelName?_recast (e : Expr) : (recast r e).modelName? = recast r e.modelName? := by
  cases e <;> rfl

private theorem mapM_quoted?_recast (es : List Expr) :
    (recast r es).mapM Expr.quoted? = recast r (es.mapM Expr.quoted?) := by
  induction es with
  | nil => rfl
  | cons e es ih =>
    rw [recast_cons, List.mapM_cons, List.mapM_cons, ih]
    cases e <;> try rfl
    cases es.mapM Expr.quoted? <;> rfl

private theorem skillNames?_recast (e : Expr) :
    (recast r e).skillNames? = recast r e.skillNames? := by
  cases e with
  | array a =>
    rw [recast_expr_array]
    exact mapM_quoted?_recast r a.items
  | action | string | number | ident | object | discretion => rfl

private theorem isImplicit_recast (c : Context) : (recast r c).isImplicit = c.isImplicit := by
  cases c <;> rfl

/-! ## Sessions -/

namespace SessionOf

private theorem addKey_recast (s : Session) (key : Ident) :
    ({ recast r s with keys := (recast r s).keys ++ [recast r key] } : Session)
      = recast r { s with keys := s.keys ++ [key] } :=
  congrArg (fun keys ↦ { recast r s with keys }) (recast_append r s.keys [key]).symm

private theorem addProperty_recast (s : Session) (p : Property) :
    ({ recast r s with properties := (recast r s).properties ++ [recast r p] } : Session)
      = recast r { s with properties := s.properties ++ [p] } :=
  congrArg (fun properties ↦ { recast r s with properties }) (recast_append r s.properties [p]).symm

private theorem withModifier_recast (s : Session) (m : Modifier) :
    withModifier (recast r s) (recast r m)
      = recast r (s.withModifier m) := by
  obtain ⟨_ | ⟨key, span⟩, value, at_⟩ := m
  · cases value <;> rfl
  change withModifier (recast r s) ⟨some ⟨key, r.place span⟩, recast r value, r.place at_⟩ = _
  by_cases retry : key = "retry"
  · subst retry
    cases value with
    | string l => rfl
    | number digits =>
      exact bind_recast (countOf_recast r digits) fun n ↦
        bind_recast (setOnce_recast r s.retry ⟨_, span⟩ n) fun retry ↦
          congrArg Except.ok (addKey_recast r { s with retry } ⟨_, span⟩)
  by_cases backoff : key = "backoff"
  · subst backoff
    cases value with
    | number digits => rfl
    | string l =>
      exact bind_recast (setOnce_recast r s.backoff ⟨_, span⟩ ⟨l.value, l.span⟩) fun backoff ↦
        congrArg Except.ok (addKey_recast r { s with backoff } ⟨_, span⟩)
  · cases value <;>
      simp only [withModifier, retry, backoff, reduceCtorEq, imp_self, imp_false, false_implies,
        implies_true, bind_pure_comp] <;> rfl

/-- Modifiers that are recast set what is recast. -/
theorem withModifiers_recast (s : Session) (ms : List Modifier) :
    withModifiers (recast r s) (recast r ms)
      = recast r (s.withModifiers ms) :=
  foldlM_recast (withModifier_recast r) s ms

private theorem withKnown?_recast (s : Session) (p : Property) :
    withKnown? (recast r s) (recast r p)
      = recast r (s.withKnown? p) := by
  obtain ⟨⟨key, span⟩, value, at_⟩ := p
  change withKnown? (recast r s) ⟨⟨key, r.place span⟩, recast r value, r.place at_⟩ = _
  by_cases agent : key = "agent"
  · subst agent
    rcases value with e | context | group
    · cases e with
      | ident name =>
        exact bind_recast (setOnce_recast r s.agent ⟨_, span⟩ name) fun agent ↦ rfl
      | action | string | number | array | object | discretion => rfl
    · rfl
    · rfl
  by_cases model : key = "model"
  · subst model
    rcases value with e | context | group
    · simp only [withKnown?, recast_property_expr, modelName?_recast]
      cases e.modelName? with
      | none => rfl
      | some name =>
        exact bind_recast (setOnce_recast r s.model ⟨_, span⟩ name) fun model ↦ rfl
    · rfl
    · rfl
  by_cases prompt : key = "prompt"
  · subst prompt
    rcases value with e | context | group
    · cases e with
      | string text =>
        exact bind_recast (setOnce_recast r s.prompt ⟨_, span⟩ text) fun prompt ↦ rfl
      | action | ident | number | array | object | discretion => rfl
    · rfl
    · rfl
  by_cases skills : key = "skills"
  · subst skills
    rcases value with e | context | group
    · simp only [withKnown?, recast_property_expr, skillNames?_recast]
      cases e.skillNames? with
      | none => rfl
      | some names =>
        exact bind_recast (setOnce_recast r s.skills ⟨_, span⟩ names) fun skills ↦ rfl
    · rfl
    · rfl
  by_cases context : key = "context"
  · subst context
    rcases value with e | context | group
    · rfl
    · change (if (recast r s.context).isImplicit = true then _ else _)
        = recast r (if s.context.isImplicit = true then _ else _)
      rw [isImplicit_recast]
      split <;> rfl
    · rfl
  by_cases retry : key = "retry"
  · subst retry
    rcases value with e | context | group
    · cases e with
      | number digits =>
        exact bind_recast (countOf_recast r digits) fun n ↦
          bind_recast (setOnce_recast r s.retry ⟨_, span⟩ n) fun retry ↦ rfl
      | action | ident | string | array | object | discretion => rfl
    · rfl
    · rfl
  by_cases backoff : key = "backoff"
  · subst backoff
    rcases value with e | context | group
    · cases e with
      | string text =>
        exact bind_recast (setOnce_recast r s.backoff ⟨_, span⟩ ⟨text.value, text.span⟩)
          fun backoff ↦ rfl
      | action | ident | number | array | object | discretion => rfl
    · rfl
    · rfl
  · have other (s : Session) (value : PropertyValue) (at_ span : Span) :
        withKnown? s ⟨⟨key, at_⟩, value, span⟩ = .ok none := by
      simp [withKnown?, *]
    rw [other, other]
    rfl

private theorem withProperty_recast (s : Session) (p : Property) :
    withProperty (recast r s) (recast r p)
      = recast r (s.withProperty p) :=
  bind_recast (withKnown?_recast r s p) fun
    | some s' => congrArg Except.ok (addKey_recast r s' p.key)
    | none => congrArg Except.ok (addProperty_recast r s p)

/-- Properties that are recast set what is recast. -/
theorem withProperties_recast (s : Session) (ps : List Property) :
    withProperties (recast r s) (recast r ps)
      = recast r (s.withProperties ps) :=
  foldlM_recast (withProperty_recast r) s ps

end SessionOf

/-! ## Agents -/

namespace AgentOf

private theorem addKey_recast (a : Agent) (key : Ident) :
    ({ recast r a with keys := (recast r a).keys ++ [recast r key] } : Agent)
      = recast r { a with keys := a.keys ++ [key] } :=
  congrArg (fun keys ↦ { recast r a with keys }) (recast_append r a.keys [key]).symm

private theorem addProperty_recast (a : Agent) (p : Property) :
    ({ recast r a with properties := (recast r a).properties ++ [recast r p] } : Agent)
      = recast r { a with properties := a.properties ++ [p] } :=
  congrArg (fun properties ↦ { recast r a with properties }) (recast_append r a.properties [p]).symm

private theorem withKnown?_recast (a : Agent) (p : Property) :
    withKnown? (recast r a) (recast r p) = recast r (a.withKnown? p) := by
  obtain ⟨⟨key, span⟩, value, at_⟩ := p
  change withKnown? (recast r a) ⟨⟨key, r.place span⟩, recast r value, r.place at_⟩ = _
  by_cases model : key = "model"
  · subst model
    rcases value with e | context | group
    · simp only [withKnown?, recast_property_expr, modelName?_recast]
      cases e.modelName? with
      | none => rfl
      | some name => exact bind_recast (setOnce_recast r a.model ⟨_, span⟩ name) fun model ↦ rfl
    · rfl
    · rfl
  by_cases prompt : key = "prompt"
  · subst prompt
    rcases value with e | context | group
    · cases e with
      | string text =>
        exact bind_recast (setOnce_recast r a.prompt ⟨_, span⟩ text) fun prompt ↦ rfl
      | action | ident | number | array | object | discretion => rfl
    · rfl
    · rfl
  by_cases skills : key = "skills"
  · subst skills
    rcases value with e | context | group
    · have keys : (recast r a).keys.any (·.val = "skills") = a.keys.any (·.val = "skills") :=
        List.any_map
      simp only [withKnown?, recast_property_expr, skillNames?_recast, keys]
      cases e.skillNames? <;> split <;> rfl
    · rfl
    · rfl
  by_cases permissions : key = "permissions"
  · subst permissions
    rcases value with e | context | group
    · rfl
    · rfl
    · rw [recast_property_nested]
      exact bind_recast (setOnce_recast r a.permissions ⟨_, span⟩ group) fun permissions ↦ rfl
  · have other (a : Agent) (value : PropertyValue) (at_ span : Span) :
        withKnown? a ⟨⟨key, at_⟩, value, span⟩ = .ok none := by
      simp [withKnown?, *]
    rw [other, other]
    rfl

private theorem withProperty_recast (a : Agent) (p : Property) :
    withProperty (recast r a) (recast r p) = recast r (a.withProperty p) :=
  bind_recast (withKnown?_recast r a p) fun
    | some a' => congrArg Except.ok (addKey_recast r a' p.key)
    | none => congrArg Except.ok (addProperty_recast r a p)

/-- Properties that are recast set what is recast. -/
theorem withProperties_recast (a : Agent) (ps : List Property) :
    withProperties (recast r a) (recast r ps) = recast r (a.withProperties ps) :=
  foldlM_recast (withProperty_recast r) a ps

end AgentOf

/-! ## Parallel blocks and loops -/

private theorem ParallelOf.withModifier_recast (p : Parallel) (m : Modifier) :
    ParallelOf.withModifier (recast r p) (recast r m) = recast r (p.withModifier m) := by
  obtain ⟨_ | ⟨key, span⟩, value, at_⟩ := m
  · obtain ⟨join, _, _, _, _, _⟩ := p
    cases join <;> cases value <;> rfl
  change withModifier (recast r p) ⟨some ⟨key, r.place span⟩, recast r value, r.place at_⟩ = _
  have addKey (p : Parallel) : ({ recast r p with keys := (recast r p).keys ++ [⟨key, r.place span⟩] }
      : Parallel) = recast r { p with keys := p.keys ++ [⟨key, span⟩] } :=
    congrArg (fun keys ↦ { recast r p with keys }) (recast_append r p.keys [⟨key, span⟩]).symm
  by_cases onFail : key = "on-fail"
  · subst onFail
    cases value with
    | string s => exact congrArg Except.ok (addKey { p with onFail := some ⟨s.value, s.span⟩ })
    | number digits => rfl
  by_cases count : key = "count"
  · subst count
    cases value with
    | string s => rfl
    | number digits =>
      exact bind_recast (countOf_recast r digits) fun n ↦
        congrArg Except.ok (addKey { p with count := some n })
  · cases value <;> simp [withModifier, onFail, count]

private theorem LoopOf.withModifier_recast (l : Loop) (m : Modifier) :
    LoopOf.withModifier (recast r l) (recast r m) = recast r (l.withModifier m) := by
  obtain ⟨_ | ⟨key, span⟩, value, at_⟩ := m
  · cases value <;> rfl
  change withModifier (recast r l) ⟨some ⟨key, r.place span⟩, recast r value, r.place at_⟩ = _
  have addKey (l : Loop) : ({ recast r l with keys := (recast r l).keys ++ [⟨key, r.place span⟩] }
      : Loop) = recast r { l with keys := l.keys ++ [⟨key, span⟩] } :=
    congrArg (fun keys ↦ { recast r l with keys }) (recast_append r l.keys [⟨key, span⟩]).symm
  by_cases max : key = "max"
  · subst max
    cases value with
    | string s => rfl
    | number digits =>
      exact bind_recast (countOf_recast r digits) fun n ↦
        congrArg Except.ok (addKey { l with maxIterations := some n })
  · cases value <;> simp [withModifier, max]

/-- Modifiers that are recast set what is recast. -/
theorem ParallelOf.withModifiers_recast (p : Parallel) (ms : List Modifier) :
    ParallelOf.withModifiers (recast r p) (recast r ms) = recast r (p.withModifiers ms) :=
  foldlM_recast (withModifier_recast r) p ms

/-- Modifiers that are recast set what is recast. -/
theorem LoopOf.withModifiers_recast (l : Loop) (ms : List Modifier) :
    LoopOf.withModifiers (recast r l) (recast r ms) = recast r (l.withModifiers ms) :=
  foldlM_recast (withModifier_recast r) l ms

end ProseLang
