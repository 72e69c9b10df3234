import ProseLang.Proofs.Grammar.Forward
import ProseLang.Proofs.Grammar.Likeness

/-!
# Parsers that come to the same

`Echoes k a b p p'` says of two parsers that from all cursors abreast at a stage `a` they give the
same up to places and comments and leave the cursors abreast at a stage `b`, or fail alike. Where a
comment is left out on the right, the left one may also find the comment in the place of something
else; what it does from there on can only add errors (`Harmed`).

This module has the judgement, the parsers of single tokens and the loops.
-/

namespace ProseLang

/-- What the result of a step says of the cursors after it. -/
structure Outcome (ρ : Type) where
  stage : ρ → Stage
  /-- The error that the step ends in, if there is one. -/
  fault : ρ → Option ParseError

namespace Outcome

variable {α ρ : Type}

/-- A parser that starts at `a` and gives something at `b`. -/
def parser (a b : Stage) : Outcome (Except ParseError α) where
  stage
    | .ok _ => b
    | .error _ => .loose a.begun
  fault
    | .ok _ => none
    | .error e => some e

/-- A parser after which recovery goes on. -/
def recovered (a b : Stage) : Outcome (Option α) where
  stage x := if x.isSome then b else .loose a.begun
  fault _ := none

/-- A round of a loop that starts at `a` and stops at `b`. -/
def round (a b : Stage) : Outcome (List α × RoundEnd) where
  stage
    | (_, .again) => a
    | (_, .stop) => b
    | (_, .fail _) => .loose a.begun
  fault
    | (_, .fail e) => some e
    | _ => none

/-- A loop that starts at `a` and stops at `b`. -/
def loop (a b : Stage) : Outcome (List α × Option ParseError) where
  stage x := if x.2.isNone then b else .loose a.begun
  fault x := x.2

end Outcome

/-- Whether a comment comes next where something else is expected. -/
def Likeness.Stalls (k : Likeness) (c : Cursor) : Prop :=
  ∃ t ts, c.rest = t :: ts ∧ k.omits t = true ∧ ∀ expected,
    k.Harms ⟨.unexpected expected c.current.kind.describe, c.current.span⟩

/-- What is left out is a comment, and no other token. -/
theorem Likeness.kind_ne_of_omits (k : Likeness) {c : Cursor} {t : Token} {ts : List Token}
    (h : c.rest = t :: ts) (omitted : k.omits t = true) {kind : TokenKind}
    (other : kind.isComment = false) : c.current.kind ≠ kind := by
  have comment := (Bool.and_eq_true_iff.1 omitted).2
  rw [Cursor.current_of_cons h]
  rintro rfl
  rw [other] at comment
  cases comment

section

variable {α β ρ σ : Type} {k : Likeness} {a b d : Stage} {c c' : Cursor}

/-- Whether a step has found a comment that is left out on the right. -/
def Harmed (k : Likeness) (o : Outcome ρ) (r : ρ × Cursor) : Prop :=
  ∃ e, (e ∈ r.2.errors ∨ o.fault r.1 = some e) ∧ k.Harms e

/-- Whether two steps have come to the same. -/
def Echoed [Recastable ρ] (k : Likeness) (o : Outcome ρ) (r r' : ρ × Cursor) : Prop :=
  Harmed k o r ∨ k.Like r.1 r'.1 ∧ Abreast k (o.stage r.1) r.2 r'.2

/-- Whether two steps come to the same from cursors abreast, and the first moves forward. -/
structure StepEchoes [Recastable ρ] (k : Likeness) (a : Stage) (o : Outcome ρ)
    (m m' : StateM Cursor ρ) : Prop where
  passes : ∀ c : Cursor, c.Passes (m c).2
  echoed : ∀ c c', Abreast k a c c' → Echoed k o (m c) (m' c')

/-- Whether two parsers come to the same from cursors abreast at a stage `a`, where they give
something at `b`. -/
abbrev Echoes [Recastable α] (k : Likeness) (a b : Stage) (p p' : Parser α) : Prop :=
  StepEchoes k a (.parser a b) p.run p'.run

/-! ## Composition -/

variable [Recastable α] [Recastable β] [Recastable ρ] [Recastable σ]

omit [Recastable ρ] [Recastable σ] in
private theorem Harmed.passes {o : Outcome ρ} {o' : Outcome σ} {r : ρ × Cursor} {q : σ × Cursor}
    (h : Harmed k o r) (passes : r.2.Passes q.2)
    (fault : ∀ e, o.fault r.1 = some e → k.Harms e → Harmed k o' q) : Harmed k o' q := by
  obtain ⟨e, known | failed, harms⟩ := h
  · exact ⟨e, .inl (passes.errors.subset known), harms⟩
  · exact fault e failed harms

/-- What becomes of what a step comes to. -/
theorem Echoed.imp {o : Outcome ρ} {o' : Outcome σ} {r r' : ρ × Cursor} {f g : ρ → σ}
    (h : Echoed k o r r') (hlike : ∀ x x', k.Like x x' → k.Like (f x) (g x'))
    (hstage : ∀ x, (o.stage x).Covers (o'.stage (f x)))
    (hfault : ∀ x e, o.fault x = some e → o'.fault (f x) = some e) :
    Echoed k o' (f r.1, r.2) (g r'.1, r'.2) := by
  rcases h with ⟨e, known | failed, harms⟩ | ⟨like, abreast⟩
  · exact .inl ⟨e, .inl known, harms⟩
  · exact .inl ⟨e, .inr (hfault _ e failed), harms⟩
  · exact .inr ⟨hlike _ _ like, abreast.mono (hstage _)⟩

/-- Going on from where two steps have come to the same. -/
theorem Echoed.bind {o : Outcome ρ} {o' : Outcome σ} {f f' : ρ → StateM Cursor σ}
    {r r' : ρ × Cursor} (h : Echoed k o r r') (hr : r.2.rejected = k.rejected)
    (hk : ∀ x x', k.Like x x' → StepEchoes k (o.stage x) o' (f x) (f' x'))
    (hfault : ∀ x e, o.fault x = some e → k.Harms e →
      ∀ c : Cursor, c.rejected = k.rejected → Harmed k o' (f x c)) :
    Echoed k o' (f r.1 r.2) (f' r'.1 r'.2) := by
  rcases h with harmed | ⟨like, abreast⟩
  · obtain ⟨x', like⟩ := k.exists_like r.1
    refine .inl (harmed.passes ((hk _ x' like).passes r.2) fun e failed harms ↦ ?_)
    exact hfault _ e failed harms _ hr
  · exact (hk _ _ like).echoed _ _ abreast

namespace StepEchoes

variable {o : Outcome ρ} {o' : Outcome σ} {m m' : StateM Cursor ρ} {f f' : ρ → StateM Cursor σ}

/-- Steps one after the other come to the same, unless the first has found a comment that is left
out. -/
theorem bind (h : StepEchoes k a o m m')
    (hk : ∀ x x', k.Like x x' → StepEchoes k (o.stage x) o' (f x) (f' x'))
    (hfault : ∀ x e, o.fault x = some e → k.Harms e →
      ∀ c : Cursor, c.rejected = k.rejected → Harmed k o' (f x c)) :
    StepEchoes k a o' (m >>= f) (m' >>= f') := by
  refine ⟨fun c ↦ ?_, fun c c' abreast ↦ ?_⟩
  · obtain ⟨x', like⟩ := k.exists_like (m c).1
    exact (h.passes c).trans ((hk _ x' like).passes _)
  · exact (h.echoed c c' abreast).bind ((h.passes c).rejected.trans abreast.rejected) hk hfault

/-- Values that are the same but for their places and comments. -/
theorem pure {x x' : ρ} (hlike : k.Like x x') (hstage : a.Covers (o.stage x)) :
    StepEchoes k a o (pure x) (pure x') :=
  ⟨fun c ↦ .refl c, fun _ _ h ↦ .inr ⟨hlike, h.mono hstage⟩⟩

/-- A step that goes on from another place. -/
theorem move {o' : Outcome σ} {n n' : Unit → StateM Cursor σ} {f : Cursor → Cursor}
    (passes : ∀ c : Cursor, c.Passes (f c))
    (hf : ∀ c c', Abreast k a c c' → Abreast k b (f c) (f c'))
    (h : StepEchoes k b o' (n ()) (n' ())) : StepEchoes k a o' (modify f >>= n) (modify f >>= n') :=
  ⟨fun c ↦ (passes c).trans (h.passes (f c)), fun c c' abreast ↦ h.echoed _ _ (hf c c' abreast)⟩

/-- A step that looks at the token at the cursor. -/
theorem current (f g : TokenKind → StateM Cursor ρ) (ha : a.ready = true)
    (exact : ∀ x, x.isExact = true → StepEchoes k (a.facing [x]) o (f x) (g x))
    (string : ∀ l l', k.Like l l' →
      StepEchoes k (a.facing [.string l]) o (f (.string l)) (g (.string l')))
    (comment : ∀ text text',
      StepEchoes k (a.facing [.comment text]) o (f (.comment text)) (g (.comment text'))) :
    StepEchoes k a o (do f (← get).current.kind) (do g (← get).current.kind) := by
  have faces {x x' : TokenKind} (h : k.Like x x') : StepEchoes k (a.facing [x]) o (f x) (g x') := by
    rcases h.cases with rfl | ⟨l, l', rfl, rfl, like⟩ | ⟨text, text', rfl, rfl⟩
    · cases hx : x.isExact with
      | true => exact exact x hx
      | false =>
        cases x with
        | string l => exact string l l (TokenKind.string.inj h)
        | comment text => exact comment text text
        | _ => cases hx
    · exact string l l' like
    · exact comment text text'
  refine ⟨fun c ↦ ?_, fun c c' abreast ↦ ?_⟩
  · obtain ⟨x', like⟩ := k.exists_like c.current.kind
    exact (faces like).passes c
  · exact (faces (abreast.current ha).kind).echoed c c' abreast.facing_current

/-- Where a step starts, less may be known of what it comes to. -/
theorem imp {o' : Outcome ρ} (h : StepEchoes k b o m m') (hab : a.Covers b)
    (hstage : ∀ x, (o.stage x).Covers (o'.stage x))
    (hfault : ∀ x e, o.fault x = some e → o'.fault x = some e) : StepEchoes k a o' m m' :=
  ⟨h.passes, fun c c' abreast ↦
    (h.echoed c c' (abreast.mono hab)).imp (f := id) (g := id) (fun _ _ ↦ id) hstage hfault⟩

end StepEchoes

namespace Echoes

variable {p p' : Parser α} {f f' : α → Parser β}

/-- A value that is there already leaves the cursors at any stage that says less. -/
theorem pure_of_covers {x x' : α} (hlike : k.Like x x') (hab : a.Covers b) :
    Echoes k a b (pure x) (pure x') := StepEchoes.pure (congrArg Except.ok hlike) hab

/-- A value that is there already leaves the cursors where they are. -/
theorem pure {x x' : α} (hlike : k.Like x x') : Echoes k a a (pure x) (pure x') :=
  pure_of_covers hlike (.refl a)

/-- Errors that are the same but for their places. -/
theorem throw {e e' : ParseError} (h : k.Like e e') :
    Echoes k a b (throw e : Parser α) (throw e') :=
  StepEchoes.pure (congrArg Except.error h) a.covers_loose

/-- A value computed from what was read. -/
theorem lift {r r' : Except ParseError α} (h : k.Like r r') :
    Echoes k a a (liftM r : Parser α) (liftM r') := by
  cases r with
  | ok x =>
    cases r' with
    | ok x' => exact .pure (Except.ok.inj h)
    | error e' => cases h
  | error e =>
    cases r' with
    | ok x' => cases h
    | error e' => exact .throw (Except.error.inj h)

/-- A parser within one that started at a stage `a`. -/
theorem within (h : Echoes k b d p p') (hb : a.begun = true → b.begun = true) :
    StepEchoes k b (.parser a d) p.run p'.run := by
  refine h.imp (.refl b) (fun y ↦ ?_) fun y e he ↦ ?_
  · cases y with
    | ok y => exact .refl d
    | error e => exact ⟨nofun, nofun, hb, List.nil_prefix⟩
  · cases y <;> exact he

/-- A parser goes on after another one gives something. -/
theorem bindCont (hk : ∀ x x', k.Like x x' → Echoes k b d (f x) (f' x'))
    (hb : a.begun = true → b.begun = true) {r r' : Except ParseError α} (h : k.Like r r') :
    StepEchoes k ((Outcome.parser a b).stage r) (.parser a d) (ExceptT.bindCont f r)
      (ExceptT.bindCont f' r') := by
  rcases r with e | x <;> rcases r' with e' | x'
  · exact StepEchoes.pure (congrArg Except.error (Except.error.inj h)) (.refl _)
  · cases h
  · cases h
  · exact (hk x x' (Except.ok.inj h)).within hb

omit [Recastable α] [Recastable β] in
private theorem bindCont_harmed {r : Except ParseError α} {e : ParseError}
    (failed : (Outcome.parser a b).fault r = some e) (harms : k.Harms e) (c : Cursor) :
    Harmed k (.parser a d) (ExceptT.bindCont f r c) := by
  rcases r with e' | x <;> cases failed
  exact ⟨e, .inr rfl, harms⟩

/-- Parsers one after the other come to the same. -/
theorem bind [hb : a.Begins b] (h : Echoes k a b p p')
    (hk : ∀ x x', k.Like x x' → Echoes k b d (f x) (f' x')) :
    Echoes k a d (p >>= f) (p' >>= f') := by
  change StepEchoes k a (.parser a d) (p.run >>= ExceptT.bindCont f)
    (p'.run >>= ExceptT.bindCont f')
  exact StepEchoes.bind h (fun _ _ like ↦ bindCont hk hb.begun like) fun _ _ failed harms c _ ↦
    bindCont_harmed failed harms c

omit [Recastable α] [Recastable β] in
private theorem passes_bindCont (h : ∀ x (c : Cursor), c.Passes (f x c).2) (r : Except ParseError α)
    (c : Cursor) : c.Passes (ExceptT.bindCont f r c).2 := by
  cases r with
  | ok x => exact h x c
  | error e => exact .refl c

omit [Recastable α] [Recastable β] in
/-- Parsers one after the other move on when each of them does. -/
theorem passes_bind (h : ∀ c : Cursor, c.Passes (p c).2) (hf : ∀ x (c : Cursor), c.Passes (f x c).2)
    (c : Cursor) : c.Passes ((p >>= f) c).2 :=
  (h c).trans (passes_bindCont hf _ _)

/-- A parser that goes on with what is known of the first thing read. -/
theorem bind_known {R : α → α → Prop} [hb : a.Begins b] (h : Echoes k a b p p')
    (known : ∀ c c' x x' u u', Abreast k a c c' → p c = (.ok x, u) → p' c' = (.ok x', u') →
      k.Like x x' → R x x')
    (passes : ∀ x (c : Cursor), c.Passes (f x c).2)
    (hk : ∀ x x', k.Like x x' → R x x' → Echoes k b d (f x) (f' x')) :
    Echoes k a d (p >>= f) (p' >>= f') := by
  refine ⟨passes_bind h.passes passes, fun c c' abreast ↦ ?_⟩
  have both : Echoed k _ (p c) (p' c') := h.echoed c c' abreast
  change Echoed k _ (ExceptT.bindCont f (p c).1 (p c).2) (ExceptT.bindCont f' (p' c').1 (p' c').2)
  rcases both with harmed | ⟨like, next⟩
  · exact .inl (harmed.passes (passes_bindCont passes _ _) fun _ failed harms ↦
      bindCont_harmed failed harms _)
  · rcases hp : p c with ⟨e | x, u⟩ <;> rcases hp' : p' c' with ⟨e' | x', u'⟩ <;> rw [hp, hp']
      at like next
    · exact .inr ⟨congrArg Except.error (Except.error.inj like), next⟩
    · cases like
    · cases like
    · have facts := known c c' x x' u u' abreast hp hp' (Except.ok.inj like)
      exact ((hk x x' (Except.ok.inj like) facts).within hb.begun).echoed u u' next

/-- Parsers whose values are changed alike come to the same. -/
theorem map {g g' : α → β} [a.Begins b] (h : Echoes k a b p p')
    (hg : ∀ x x', k.Like x x' → k.Like (g x) (g' x')) :
    Echoes k a b (g <$> p) (g' <$> p') := by
  rw [map_eq_pure_bind, map_eq_pure_bind]
  exact h.bind fun x x' like ↦ .pure (hg x x' like)

/-- Where a parser starts, and what it comes to. -/
theorem weaken {a' b' : Stage} (h : Echoes k a b p p') (ha : a'.Covers a)
    (hb : b.Covers b') (hbegun : a'.begun = true → a.begun = true) :
    Echoes k a' b' p p' := by
  refine StepEchoes.imp h ha (fun x ↦ ?_) fun x e he ↦ ?_
  · cases x with
    | ok x => exact hb
    | error e => exact ⟨nofun, nofun, hbegun, List.nil_prefix⟩
  · cases x <;> exact he

/-- A parser that starts by looking at the token at the cursor. -/
theorem peek {f f' : TokenKind → Parser α} (ha : a.ready = true)
    (exact : ∀ x, x.isExact = true → Echoes k (a.facing [x]) b (f x) (f' x))
    (string : ∀ l l', k.Like l l' →
      Echoes k (a.facing [.string l]) b (f (.string l)) (f' (.string l')))
    (comment : ∀ text text',
      Echoes k (a.facing [.comment text]) b (f (.comment text)) (f' (.comment text'))) :
    Echoes k a b (Parser.peek >>= f) (Parser.peek >>= f') :=
  StepEchoes.current (fun x ↦ (f x).run) (fun x ↦ (f' x).run) ha exact string comment

/-- A parser that also looks at the token after the one at the cursor. -/
theorem peekNext {x : TokenKind} {f f' : TokenKind → Parser α} (ha : a.ready = true)
    (hx : x.beforeOwnLine = false) (hend : x ≠ .endOfFile)
    (h : ∀ y y', k.Like y y' → Echoes k (a.facing [x, y]) b (f y) (f' y')) :
    Echoes k (a.facing [x]) b (Parser.peekNext >>= f) (Parser.peekNext >>= f') := by
  refine ⟨fun c ↦ ?_, fun c c' abreast ↦ ?_⟩
  · obtain ⟨y', like⟩ := k.exists_like c.next.kind
    exact (h _ y' like).passes c
  · have hk := abreast.kind_of_ahead rfl
    obtain ⟨pair, faces⟩ := abreast.next ha (by rw [hk]; exact hx) (by rw [hk]; exact hend)
    rw [hk] at faces
    exact (h _ _ pair.kind).echoed c c' faces

/-- A parser that notes where it starts. -/
theorem first (f : Span → Parser α)
    (h : ∀ s s' : Span, k.Like s s' → Echoes k a b (f s) (f s'))
    (ha : a.ready = true) :
    Echoes k a b (do f (← Parser.cursor).current.span) (do f (← Parser.cursor).current.span) := by
  refine ⟨fun c ↦ ?_, fun c c' abreast ↦ ?_⟩
  · obtain ⟨s', like⟩ := k.exists_like c.current.span
    exact (h _ s' like).passes c
  · exact (h _ _ (abreast.current ha).span).echoed c c' abreast

/-- A parser that goes on in a block if one opens. -/
theorem atBlock {p p' q q' : Parser α} (h : Echoes k (a.facing [.newline, .indent]) b p p')
    (h' : Echoes k a b q q') :
    Echoes k a b (do if (← Parser.cursor).atBlock then p else q)
      (do if (← Parser.cursor).atBlock then p' else q') := by
  refine ⟨fun c ↦ ?_, fun c c' abreast ↦ ?_⟩
  · change c.Passes ((if c.atBlock then p else q) c).2
    split
    · exact h.passes c
    · exact h'.passes c
  · change Echoed k _ ((if c.atBlock then p else q) c) ((if c'.atBlock then p' else q') c')
    rw [← abreast.atBlock_eq]
    split
    · next block => exact h.echoed c c' (abreast.facing_block block)
    · exact h'.echoed c c' abreast

/-- An error about a missing block is the same. -/
theorem missingBlock (construct : Construct) (ha : a.begun = true) :
    Echoes k a b (Parser.missingBlock construct : Parser α) (Parser.missingBlock construct) := by
  refine ⟨fun c ↦ .refl c, fun c c' abreast ↦ .inr ⟨?_, abreast.loose⟩⟩
  have place := k.place_point (abreast.begun ha)
  change Except.error _ = Except.error _
  rw [recast_parseError, recast_parseError, place]

/-- A parser that calls for a block. -/
theorem needsBlock {p p' : Parser α} (construct : Construct) (ha : a.begun = true)
    (h : Echoes k (a.facing [.newline, .indent]) b p p') :
    Echoes k a b
      (do
        if !(← Parser.cursor).atBlock then Parser.missingBlock construct
        p)
      (do
        if !(← Parser.cursor).atBlock then Parser.missingBlock construct
        p') := by
  have opens (p : Parser α) : (do
      if !(← Parser.cursor).atBlock then Parser.missingBlock construct
      p : Parser α)
        = (do if (← Parser.cursor).atBlock then p
              else (Parser.missingBlock construct : Parser Unit) >>= fun _ ↦ p) := by
    congr 1
    funext c
    cases c.atBlock <;> rfl
  rw [opens, opens]
  exact .atBlock h ((missingBlock construct ha).bind fun _ _ _ ↦ h)

/-- A comment that is left out on the right is not what is called for. -/
theorem unexpected (expected : String) :
    Echoes k a b (Parser.unexpected expected : Parser α) (Parser.unexpected expected) := by
  refine ⟨fun c ↦ .refl c, fun c c' abreast ↦ ?_⟩
  rcases abreast.current_cases with ⟨-, pair⟩ | ⟨t, ts, hc, omitted⟩
  · refine .inr ⟨?_, abreast.loose⟩
    change Except.error _ = Except.error _
    rw [recast_parseError, recast_parseError, pair.kind.describe]
    exact congrArg _ (congrArg _ pair.span)
  · exact .inl ⟨_, .inr rfl, abreast.harms hc omitted expected⟩

/-- What is read closes with its span, which starts where its first token does. -/
theorem close_from {first first' : Span} {f f' : Span → α} (ha : a.begun = true)
    (hfirst : k.Like first first')
    (h : ∀ s s' : Span, s.start = first.start → s'.start = first'.start →
      k.left.extent s = k.right.extent s' → k.Like (f s) (f' s')) :
    Echoes k a a (do return f (← Parser.spanFrom first))
    (do return f' (← Parser.spanFrom first')) :=
  ⟨fun c ↦ .refl c, fun _ _ abreast ↦
    .inr ⟨congrArg Except.ok (h _ _ rfl rfl (k.extent_close hfirst (abreast.begun ha))), abreast⟩⟩

/-- What is read ends with the same span but for its place. -/
theorem close {first first' : Span} {f f' : Span → α} (ha : a.begun = true)
    (hfirst : k.Like first first')
    (h : ∀ s s', k.left.extent s = k.right.extent s' → k.Like (f s) (f' s')) :
    Echoes k a a (do return f (← Parser.spanFrom first))
    (do return f' (← Parser.spanFrom first')) :=
  close_from ha hfirst fun s s' _ _ ↦ h s s'

/-- Going on after comments. -/
theorem skipComments (ha : a.begun = true) :
    Echoes k a (.fresh true) (Parser.move Cursor.skipComments) (Parser.move Cursor.skipComments) :=
  ⟨fun c ↦ .skip c _, fun _ _ abreast ↦ .inr ⟨rfl, by
    have := abreast.skipComments
    rwa [ha] at this⟩⟩

/-- Recording an error without failing. -/
theorem report {e e' : ParseError} (h : k.Like e e') :
    Echoes k a a (Parser.move (·.report e)) (Parser.move (·.report e')) :=
  ⟨fun c ↦ .report c e, fun _ _ abreast ↦ .inr ⟨rfl, abreast.report h⟩⟩

/-- A parser that fails at a comment may start where one is left out. -/
theorem of_ready (h : Echoes k { a with ready := true } b p p')
    (miss : ∀ c : Cursor, c.current.kind.isComment = true → ∃ expected,
      p c = (.error ⟨.unexpected expected c.current.kind.describe, c.current.span⟩, c)) :
    Echoes k a b p p' := by
  refine ⟨h.passes, fun c c' abreast ↦ ?_⟩
  rcases abreast.current_cases with ⟨hnext, -⟩ | ⟨t, ts, hc, omitted⟩
  · exact h.echoed c c' { abreast with ready := fun _ ↦ hnext }
  · have comment := (Bool.and_eq_true_iff.1 omitted).2
    obtain ⟨expected, fails⟩ := miss c (by rwa [Cursor.current_of_cons hc])
    exact .inl ⟨_, .inr (by rw [ExceptT.run, fails]; rfl), abreast.harms hc omitted expected⟩

/-- A parser that looks for one of some tokens, among which there is no comment. -/
theorem oneOf {role : String} {f f' : TokenKind → Parser α}
    (exact : ∀ x, x.isExact = true →
      Echoes k ({ a with ready := true }.facing [x]) b (f x) (f' x))
    (string : ∀ l l', k.Like l l' →
      Echoes k ({ a with ready := true }.facing [.string l]) b (f (.string l)) (f' (.string l')))
    (comment : ∀ text, f (.comment text) = Parser.unexpected role)
    (comment' : ∀ text, f' (.comment text) = Parser.unexpected role) :
    Echoes k a b (Parser.peek >>= f) (Parser.peek >>= f') := by
  refine .of_ready (.peek rfl exact string fun text text' ↦ ?_) fun c hk ↦ ⟨role, ?_⟩
  · rw [comment, comment']
    exact .unexpected role
  · change f c.current.kind c = _
    cases h : c.current.kind <;> rw [h] at hk <;> first | cases hk; done | skip
    rw [comment]
    change (Except.error _, c) = _
    rw [h]

/-! ## Tokens -/

private theorem take {x : TokenKind} {xs : List TokenKind} (hx : x.isComment = false)
    (hend : x ≠ .endOfFile) :
    Echoes k (a.facing (x :: xs)) ((a.facing (x :: xs)).past x) Parser.take Parser.take := by
  refine ⟨fun c ↦ .advance c, fun c c' abreast ↦ ?_⟩
  have hk := abreast.kind_of_ahead rfl
  have hnext := abreast.ready_of_ahead rfl hx
  rcases abreast.current_cases with ⟨-, pair⟩ | ⟨t, ts, hc, omitted⟩
  · have next := abreast.advance hnext (abreast.ne_nil (hk ▸ hend))
    rw [hk] at next
    exact .inr ⟨congrArg Except.ok (congrArg₂ Token.mk pair.kind pair.span), next⟩
  · simp [hc, omitted] at hnext

/-- A token within a line is taken. -/
theorem take_plain {x : TokenKind} (xs : List TokenKind) (hx : x.isPlain = true) :
    Echoes k (a.facing (x :: xs)) (Stage.level.facing xs) Parser.take Parser.take := by
  obtain ⟨comment, layout, within, hend⟩ := TokenKind.isPlain_facts hx
  refine (take comment hend).weaken (.refl _)
    ⟨fun _ ↦ ?_, fun _ ↦ rfl, fun _ ↦ ?_, List.prefix_refl xs⟩ id
  · simp [Stage.past, within]
  · simp [Stage.past, layout]

private theorem take_layout {x : TokenKind} (xs : List TokenKind) (hx : x.isLayout = true)
    (hend : x ≠ .endOfFile) :
    Echoes k (a.facing (x :: xs)) ((Stage.loose a.begun).facing xs) Parser.take Parser.take := by
  have comment : x.isComment = false := by cases x <;> first | rfl | cases hx
  exact (take comment hend).weaken (.refl _)
    ⟨nofun, nofun, fun begun ↦ Bool.or_eq_true_iff.2 (.inl begun), List.prefix_refl xs⟩ id

/-- A block opens. -/
theorem openBlock {p p' : Parser α} (ha : a.begun = true) (h : Echoes k (.loose true) b p p') :
    Echoes k (a.facing [.newline, .indent]) b (do let _ ← Parser.take; let _ ← Parser.take; p)
      (do let _ ← Parser.take; let _ ← Parser.take; p') := by
  have opens : Echoes k ((Stage.loose a.begun).facing [.indent])
    (.loose true) Parser.take Parser.take :=
    (take_layout (x := .indent) (a := .loose a.begun) [] rfl nofun).weaken (.refl _)
      (Stage.covers_loose_of_begun (a := (Stage.loose a.begun).facing []) ha true) id
  exact (take_layout (x := .newline) [.indent] rfl nofun).bind fun _ _ _ ↦ opens.bind fun _ _ _ ↦ h

end Echoes

private theorem expect_apply (kind : TokenKind) (c : Cursor) :
    Parser.expect kind c = if c.current.kind = kind then (.ok c.current, c.advance)
      else (.error ⟨.unexpected kind.describe c.current.kind.describe, c.current.span⟩, c) := by
  have run : Parser.take? kind c = _ := Parser.take?_apply kind c
  split at run <;> exact (Parser.bind_apply run).trans (by simp [*]; rfl)

private theorem expect_echoes (kind : TokenKind) (exact : kind.isExact = true)
    (hend : kind ≠ .endOfFile) :
    Echoes k a ({ a with ahead := [] }.past kind) (Parser.expect kind) (Parser.expect kind) := by
  refine Echoes.of_ready ⟨fun c ↦ ?_, fun c c' abreast ↦ ?_⟩ fun c comment ↦ ⟨kind.describe, ?_⟩
  · change c.Passes (Parser.expect kind c).2
    rw [expect_apply]
    split
    · exact .advance c
    · exact .refl c
  · have pair := abreast.current rfl
    have same := pair.kind.eq_iff kind exact
    change Echoed k _ (Parser.expect kind c) (Parser.expect kind c')
    rw [expect_apply, expect_apply]
    by_cases hk : c.current.kind = kind
    · rw [if_pos hk, if_pos (same.1 hk)]
      have next := abreast.advance (abreast.ready rfl) (abreast.ne_nil (hk ▸ hend))
      rw [hk] at next
      exact .inr ⟨congrArg Except.ok (congrArg₂ Token.mk pair.kind pair.span),
        next.mono ⟨id, id, id, List.nil_prefix⟩⟩
    · rw [if_neg hk, if_neg (mt same.2 hk)]
      refine .inr ⟨?_, abreast.loose⟩
      change Except.error _ = Except.error _
      rw [recast_parseError, recast_parseError, pair.kind.describe]
      exact congrArg _ (congrArg _ pair.span)
  · rw [expect_apply, if_neg]
    rintro rfl
    cases hk : c.current.kind <;> simp [hk, TokenKind.isExact, TokenKind.isComment] at exact comment

/-- A token that has to be there and is part of what is read. -/
theorem expect_plain (kind : TokenKind) (exact : kind.isExact = true)
    (plain : kind.isPlain = true) :
    Echoes k a .level (Parser.expect kind) (Parser.expect kind) := by
  obtain ⟨-, layout, within, hend⟩ := TokenKind.isPlain_facts plain
  refine (expect_echoes kind exact hend).weaken (.refl a)
    ⟨fun _ ↦ ?_, fun _ ↦ rfl, fun _ ↦ ?_, List.prefix_refl _⟩ id
  · simp [Stage.past, within]
  · simp [Stage.past, layout]

/-- A token of the layout that has to be there. -/
theorem expect_break (kind : TokenKind) (exact : kind.isExact = true) (hend : kind ≠ .endOfFile)
    (ha : a.begun = true) : Echoes k a .lax (Parser.expect kind) (Parser.expect kind) :=
  (expect_echoes kind exact hend).weaken (.refl a)
    ⟨nofun, fun _ ↦ rfl, fun _ ↦ Bool.or_eq_true_iff.2 (.inl ha), List.prefix_refl _⟩ id

/-- A reserved word that has to be there. -/
theorem keyword_echoes (word : Keyword) :
    Echoes k a .level (Parser.keyword word) (Parser.keyword word) :=
  (expect_plain (.keyword word) rfl rfl).bind fun _ _ like ↦ .pure (congrArg Token.span like)

/-- A symbol that has to be there. -/
theorem symbol_echoes (mark : Punctuation) :
    Echoes k a .level (Parser.symbol mark) (Parser.symbol mark) :=
  (expect_plain (.symbol mark) rfl rfl).bind fun _ _ _ ↦ .pure rfl

/-- What is read from one token within a line. -/
theorem read_plain {x : TokenKind} (xs : List TokenKind) (plain : x.isPlain = true) (f : Span → α)
    (h : ∀ s s', k.Like s s' → k.Like (f s) (f s')) :
    Echoes k (a.facing (x :: xs)) (Stage.level.facing xs) (do return f (← Parser.take).span)
      (do return f (← Parser.take).span) :=
  (Echoes.take_plain xs plain).bind fun _ _ like ↦ .pure (h _ _ (congrArg Token.span like))

/-- A name that has to be there. -/
theorem name_echoes (role : String) :
    Echoes k a .level (Parser.name role) (Parser.name role) := by
  refine .oneOf (fun x _ ↦ ?_) (fun _ _ _ ↦ .unexpected role) (fun _ ↦ rfl) (fun _ ↦ rfl)
  split
  · next text _ => exact read_plain [] rfl (Located.mk text) fun _ _ like ↦ congrArg _ like
  · exact .unexpected role

/-- What a name that is asked for comes to at a token. -/
def nameTurn (role : String) : TokenKind → Parser Ident
  | .identifier text => do return ⟨text, (← Parser.take).span⟩
  | _ => Parser.unexpected role

/-- A name that is known to be next. -/
theorem name_ahead (role text : String) (xs : List TokenKind) :
    Echoes k (a.facing (.identifier text :: xs)) (Stage.level.facing xs) (Parser.name role)
      (Parser.name role) := by
  have reads : Echoes k (a.facing (.identifier text :: xs)) (Stage.level.facing xs)
      (do return (⟨text, (← Parser.take).span⟩ : Ident)) (do return ⟨text, (← Parser.take).span⟩) :=
    read_plain xs rfl (Located.mk text) fun _ _ like ↦ congrArg _ like
  refine ⟨(name_echoes (k := k) (a := a) role).passes, fun c c' abreast ↦ ?_⟩
  have hk := abreast.kind_of_ahead rfl
  rcases abreast.current_cases with ⟨-, pair⟩ | ⟨t, ts, hc, omitted⟩
  · have hk' := (pair.kind.eq_iff (.identifier text) rfl).1 hk
    change Echoed k _ (nameTurn role c.current.kind c) (nameTurn role c'.current.kind c')
    rw [hk, hk']
    exact reads.echoed c c' abreast
  · have hnext := abreast.ready_of_ahead rfl rfl
    simp [hc, omitted] at hnext

/-- A string that has to be there. -/
theorem string_echoes (role : String) :
    Echoes k a .level (Parser.string role) (Parser.string role) := by
  refine .oneOf (fun x exact ↦ ?_) (fun l l' hl ↦ ?_) (fun _ ↦ rfl) (fun _ ↦ rfl)
  · split
    · cases exact
    · exact .unexpected role
  · refine (Echoes.take_plain [] rfl).bind fun t t' like ↦ .pure ?_
    have place : k.left.place t.span = k.right.place t'.span := congrArg Token.span like
    rw [Likeness.Like, recast_ofLiteral, recast_ofLiteral, hl, place]

/-- A condition in stars that has to be there. -/
theorem discretion_echoes (role : String) :
    Echoes k a .level (Parser.discretion role) (Parser.discretion role) := by
  refine .oneOf (fun x _ ↦ ?_) (fun _ _ _ ↦ .unexpected role) (fun _ ↦ rfl) (fun _ ↦ rfl)
  split
  · next d _ =>
    exact read_plain [] rfl (Discretion.mk d.text d.multiline d.raw) fun _ _ like ↦ congrArg _ like
  · exact .unexpected role

private theorem countOf_like {digits : String} {s s' : Span} (h : k.Like s s') :
    k.Like (Parser.countOf ⟨digits, s⟩) (Parser.countOf ⟨digits, s'⟩) := by
  dsimp only [Parser.countOf]
  split
  · exact congrArg (Except.ok ∘ Located.mk _) h
  · exact congrArg (Except.error ∘ ParseError.mk _) h

/-- A number that has to be there. -/
theorem count_echoes (role : String) :
    Echoes k a .level (Parser.count role) (Parser.count role) := by
  refine .oneOf (fun x _ ↦ ?_) (fun _ _ _ ↦ .unexpected role) (fun _ ↦ rfl) (fun _ ↦ rfl)
  split
  · exact (Echoes.take_plain [] rfl).bind fun _ _ like ↦
      (Echoes.lift (countOf_like (congrArg Token.span like))).weaken (.refl _) (.refl _) id
  · exact .unexpected role

/-- A token that may be there or not. -/
theorem take?_echoes (kind : TokenKind) (exact : kind.isExact = true)
    (plain : kind.isPlain = true) :
    Echoes k .level .level (Parser.take? kind) (Parser.take? kind) := by
  obtain ⟨-, layout, within, hend⟩ := TokenKind.isPlain_facts plain
  refine ⟨fun c ↦ ?_, fun c c' abreast ↦ ?_⟩
  · change c.Passes (Parser.take? kind c).2
    rw [Parser.take?_apply]
    split
    · exact .advance c
    · exact .refl c
  · have pair := abreast.current rfl
    have same := pair.kind.eq_iff kind exact
    change Echoed k _ (Parser.take? kind c) (Parser.take? kind c')
    rw [Parser.take?_apply, Parser.take?_apply]
    by_cases hk : c.current.kind = kind
    · rw [if_pos hk, if_pos (same.1 hk)]
      have next := abreast.advance (abreast.ready rfl) (abreast.ne_nil (hk ▸ hend))
      rw [hk] at next
      exact .inr ⟨congrArg (Except.ok ∘ some) (congrArg₂ Token.mk pair.kind pair.span),
        next.mono ⟨by simp [Stage.past, within], fun _ ↦ rfl, by simp [Stage.past, layout],
          List.prefix_refl _⟩⟩
    · rw [if_neg hk, if_neg (mt same.2 hk)]
      exact .inr ⟨rfl, abreast⟩

/-- A symbol that may be there. -/
theorem symbol?_echoes (mark : Punctuation) :
    Echoes k .level .level (Parser.symbol? mark) (Parser.symbol? mark) :=
  (take?_echoes (.symbol mark) rfl rfl).bind fun x x' like ↦ .pure (by
    have same := congrArg Option.isSome like
    rwa [isSome_recast, isSome_recast] at same)

/-- A look at the token ahead finds the same. -/
theorem at?_echoes (kind : TokenKind) (exact : kind.isExact = true) (ha : a.ready = true) :
    Echoes k a a (Parser.at? kind) (Parser.at? kind) :=
  ⟨fun c ↦ .refl c, fun _ _ abreast ↦ .inr ⟨congrArg Except.ok
    (decide_eq_decide.2 ((abreast.current ha).kind.eq_iff kind exact)), abreast⟩⟩

/-- Nothing goes on with a bar after comments. -/
theorem atPipe_echoes : Echoes k .lax .lax (Parser.atSymbol .pipe) (Parser.atSymbol .pipe) :=
  ⟨fun c ↦ .refl c, fun _ _ abreast ↦
    .inr ⟨congrArg Except.ok (decide_eq_decide.2 (abreast.mark_iff (.inr ⟨rfl, rfl⟩))), abreast⟩⟩

/-! ## Loops -/

section Loops

omit [Recastable α]

variable {round round' : StateM Cursor (List α × RoundEnd)}

/-- A loop moves on when its rounds do. -/
theorem rounds_passes (h : ∀ c : Cursor, c.Passes (round c).2) (c : Cursor) :
    c.Passes (rounds round c).2 := by
  fun_induction rounds round c with
  | case1 c xs d run | case2 c xs e d run | case4 c xs d run =>
    have passes := h c
    rwa [run] at passes
  | case3 c xs d run shorter ys e d' rest ih =>
    have passes := h c
    rw [run] at passes
    rw [rest] at ih
    exact passes.trans ih

/-- A loop whose rounds all take a token. -/
abbrev Advances (round : StateM Cursor (List α × RoundEnd)) : Prop :=
  ∀ n, Moves n (fun r ↦ r.2.takes 0) round round

/-- After a round that asks for another one, fewer tokens are ahead. -/
theorem Advances.shorter (h : Advances round) (hfinal : c.final.kind = .endOfFile) {xs : List α}
    {d : Cursor} (run : round c = ((xs, .again), d)) : d.rest.length < c.rest.length := by
  have takes := (h (c.rest.length + 1) c ⟨hfinal, Nat.lt_succ_self _⟩).takes
  rw [run] at takes
  exact takes

/-- What was gathered before goes in front. -/
theorem Echoed.gather [Recastable (List α)] {r r' : (List α × Option ParseError) × Cursor}
    {xs xs' : List α} (happend : ∀ r (xs ys : List α), recast r (xs ++ ys)
      = recast r xs ++ recast r ys)
    (h : Echoed k (.loop a b) r r') (hxs : k.Like xs xs') :
    Echoed k (.loop a b) ((xs ++ r.1.1, r.1.2), r.2) ((xs' ++ r'.1.1, r'.1.2), r'.2) :=
  h.imp (f := fun y ↦ (xs ++ y.1, y.2)) (g := fun y ↦ (xs' ++ y.1, y.2))
    (fun y y' like ↦ by
      obtain ⟨hread, hfault⟩ := Prod.mk.inj like
      rw [Likeness.Like, recast_mk, recast_mk, happend, happend, hxs, hread, hfault])
    (fun _ ↦ .refl _) fun _ _ ↦ id

/-- A loop comes to the same if its rounds do. The first one may also take a round alone, which
gives nothing, and its last round may leave the cursor at some `s`. -/
theorem rounds_echoed [Recastable (List α)]
    (happend : ∀ r (xs ys : List α), recast r (xs ++ ys) = recast r xs ++ recast r ys)
    (hmoves : Advances round) (passes : ∀ c : Cursor, c.Passes (round c).2) {s : Cursor → Prop}
    (h : ∀ c c', Abreast k a c c' → Echoed k (.round a b) (round c) (round c')
      ∨ (∃ xs d d', round c = ((xs, .again), d) ∧ k.Like xs [] ∧ rounds round c' = rounds round d'
        ∧ Abreast k a d d')
      ∨ (round c).1.2 = .stop ∧ s (round c).2)
    (c c' : Cursor) (abreast : Abreast k a c c') :
    Echoed k (.loop a b) (rounds round c) (rounds round c')
      ∨ (rounds round c).1.2 = none ∧ s (rounds round c).2 := by
  generalize hn : c.rest.length = n
  induction n using Nat.strongRecOn generalizing c c' with
  | _ n ih =>
  have shorter {xs : List α} {d : Cursor} (run : round c = ((xs, .again), d)) :
      d.rest.length < c.rest.length := hmoves.shorter abreast.final_kind run
  rcases h c c' abreast with here | ⟨xs, d, d', run, nothing, same, next⟩ | ⟨stop, stalled⟩
  · rcases hr : round c with ⟨⟨xs, goes⟩, d⟩
    rcases hr' : round c' with ⟨⟨xs', goes'⟩, d'⟩
    rw [hr, hr'] at here
    rcases here with harmed | ⟨like, next⟩
    · left
      left
      cases goes with
      | again =>
        rw [rounds_again hr (shorter hr)]
        exact harmed.passes (rounds_passes passes d) nofun
      | stop =>
        rw [rounds_stop hr]
        exact harmed.passes (.refl d) nofun
      | fail e =>
        rw [rounds_fail hr]
        exact harmed.passes (.refl d) fun f hf harms ↦ ⟨f, .inr hf, harms⟩
    · obtain ⟨hxs, hgoes⟩ := Prod.mk.inj like
      cases goes with
      | again =>
        cases goes' with
        | again =>
          rw [rounds_again hr (shorter hr),
            rounds_again hr' (hmoves.shorter abreast.final_kind' hr')]
          exact (ih _ (hn ▸ shorter hr) d d' next rfl).imp_left fun rest ↦ rest.gather happend hxs
        | stop => cases hgoes
        | fail e' => cases hgoes
      | stop =>
        cases goes' with
        | again => cases hgoes
        | stop =>
          rw [rounds_stop hr, rounds_stop hr']
          exact .inl (.inr ⟨congrArg (·, none) hxs, next⟩)
        | fail e' => cases hgoes
      | fail e =>
        cases goes' with
        | again => cases hgoes
        | stop => cases hgoes
        | fail e' =>
          rw [rounds_fail hr, rounds_fail hr']
          exact .inl (.inr ⟨congrArg₂ (·, some ·) hxs (RoundEnd.fail.inj hgoes), next⟩)
  · rw [rounds_again run (shorter run), same]
    exact (ih _ (hn ▸ shorter run) d d' next rfl).imp_left fun rest ↦ rest.gather happend nothing
  · rcases hr : round c with ⟨⟨xs, goes⟩, d⟩
    rw [hr] at stop stalled
    obtain rfl : goes = .stop := stop
    rw [rounds_stop hr]
    exact .inr ⟨rfl, stalled⟩

/-- A loop comes to the same when its rounds do. -/
theorem rounds_echoes [Recastable (List α)]
    (happend : ∀ r (xs ys : List α), recast r (xs ++ ys) = recast r xs ++ recast r ys)
    (hmoves : Advances round) (h : StepEchoes k a (.round a b) round round) :
    StepEchoes k a (.loop a b) (rounds round) (rounds round) :=
  ⟨rounds_passes h.passes, fun c c' abreast ↦
    (rounds_echoed (s := fun _ ↦ False) happend hmoves h.passes
      (fun c c' abreast ↦ .inl (h.echoed c c' abreast)) c c' abreast).resolve_right fun h ↦ h.2⟩

/-- Whether no round of a loop fails. -/
def NeverFails (round : StateM Cursor (List α × RoundEnd)) : Prop := ∀ c e, (round c).1.2 ≠ .fail e

/-- A round never fails whose last step never does. -/
theorem NeverFails.bind {γ : Type} {m : StateM Cursor γ} {f : γ → StateM Cursor (List α × RoundEnd)}
    (h : ∀ x, NeverFails (f x)) : NeverFails (m >>= f) := fun _ e ↦ h _ _ e

/-- A round that ends without an error does not fail. -/
theorem NeverFails.pure {xs : List α} {goes : RoundEnd} (h : ∀ e, goes ≠ .fail e) :
    NeverFails (pure (xs, goes)) := fun _ ↦ h

/-- A loop whose rounds never fail has no error. -/
theorem NeverFails.gathers (h : NeverFails round) (c : Cursor) :
    (rounds round c).1.2 = none := by
  fun_induction rounds round c with
  | case1 | case4 => rfl
  | case2 c xs e d run => exact absurd (by rw [run]) (h c e)
  | case3 c xs d run shorter ys e d' rest ih => rwa [rest] at ih

/-- What the rounds of a loop have read, where none of them fails. -/
theorem Echoes.gather [Recastable (List α)] {m : StateM Cursor (List α × Option ParseError)}
    (never : ∀ c, (m c).1.2 = none) (h : StepEchoes k a (.loop a b) m m) :
    Echoes k a b (fun c ↦ let ((read, _), c') := m c; (.ok read, c') : Parser (List α))
      (fun c ↦ let ((read, _), c') := m c; (.ok read, c')) := by
  refine ⟨h.passes, fun c c' abreast ↦ ?_⟩
  rcases h.echoed c c' abreast with ⟨e, known | failed, harms⟩ | ⟨like, next⟩
  · exact .inl ⟨e, .inl known, harms⟩
  · exact absurd (failed.symm.trans (never c)) nofun
  · have stage : (Outcome.loop a b).stage (m c).1 = b := by simp [Outcome.loop, never]
    rw [stage] at next
    have read : k.Like (m c).1.1 (m c').1.1 := congrArg Prod.fst like
    exact .inr ⟨congrArg Except.ok read, next⟩

/-- What a loop has gathered is given unless a round fails. -/
theorem Echoed.manyResult [Recastable (List α)]
    {r r' : (List α × Option ParseError) × Cursor} (h : Echoed k (.loop a b) r r') :
    Echoed k (.parser a b) (Parser.manyResult r) (Parser.manyResult r') := by
  let f (y : List α × Option ParseError) : Except ParseError (List α) :=
    match y.2 with
    | none => .ok y.1
    | some e => .error e
  have result (r : (List α × Option ParseError) × Cursor) : Parser.manyResult r = (f r.1, r.2) := by
    rcases r with ⟨⟨xs, e | e⟩, d⟩ <;> rfl
  rw [result, result]
  refine h.imp (fun y y' like ↦ ?_) (fun y ↦ ?_) fun y e he ↦ ?_
  · obtain ⟨hread, hfault⟩ := Prod.mk.inj like
    rcases y with ⟨ys, e | e⟩ <;> rcases y' with ⟨ys', e' | e'⟩
    · exact congrArg Except.ok hread
    · cases hfault
    · cases hfault
    · exact congrArg Except.error (Option.some.inj hfault)
  · rcases y with ⟨ys, e | e⟩ <;> exact .refl _
  · rcases y with ⟨ys, e' | e'⟩ <;> cases he
    rfl

/-- A list that is read moves on when its rounds do. -/
theorem passes_manyResult {r : (List α × Option ParseError) × Cursor} (h : c.Passes r.2) :
    c.Passes (Parser.manyResult r).2 := by
  rcases r with ⟨⟨xs, e | e⟩, d⟩ <;> exact h

section Many

variable [Recastable α] {round : Parser (Option α × Bool)}

/-- What one round gives is the same as a list. -/
theorem toList_like {x x' : Option α} (h : k.Like x x') : k.Like x.toList x'.toList := by
  cases x <;> cases x' <;> first | rfl | cases h | exact congrArg ([·]) (Option.some.inj h)

private theorem manyRound_echoes (h : Echoes k a a round round) :
    StepEchoes k a (.round a a) (Parser.manyRound round) (Parser.manyRound round) := by
  refine StepEchoes.bind h (fun r r' like ↦ ?_) fun r e failed harms c _ ↦ ?_
  · rcases r with e | ⟨x, goOn⟩
    · rcases r' with e' | x'
      · exact StepEchoes.pure (congrArg ([], RoundEnd.fail ·) (Except.error.inj like)) (.refl _)
      · cases like
    · rcases r' with e' | ⟨x', goOn'⟩
      · cases like
      · obtain ⟨hx, rfl⟩ := Prod.mk.inj (Except.ok.inj like)
        have read := toList_like hx
        cases goOn <;> exact StepEchoes.pure (congrArg (·, _) read) (.refl _)
  · rcases r with e' | x <;> cases failed
    exact ⟨e, .inr rfl, harms⟩

private theorem many_echoes (hmoves : Advances (Parser.manyRound round))
    (h : Echoes k a a round round) : Echoes k a a (Parser.many round) (Parser.many round) := by
  have loop := rounds_echoes recast_append hmoves (manyRound_echoes h)
  exact ⟨fun c ↦ passes_manyResult (loop.passes c), fun c c' abreast ↦
    (loop.echoed c c' abreast).manyResult⟩

end Many

variable [Recastable α] {continues : Parser Bool} {item : Parser α}

/-- Items that are read while a condition holds come to the same. -/
theorem manyWhile_echoes (hcontinues : ∀ n, Forward n 0 continues continues)
    (hitem : ∀ n, Forward n 1 item item) (h : Echoes k a a continues continues)
    (hi : Echoes k a a item item) :
    Echoes k a a (Parser.manyWhile continues item) (Parser.manyWhile continues item) := by
  refine many_echoes (fun n ↦ manyRound_moves (whileRound_moves (hcontinues n) (hitem n))) ?_
  refine h.bind fun goOn goOn' same ↦ ?_
  obtain rfl : goOn = goOn' := same
  cases goOn with
  | true => exact hi.bind fun x x' like ↦ .pure (congrArg (some ·, true) like)
  | false => exact .pure rfl

omit [Recastable α] in
private theorem commaRound_apply (close : Punctuation) (item : Parser α) (c : Cursor) :
    Parser.manyRound (Parser.commaRound close item) c
      = if c.current.kind = .symbol close then (([], .stop), c)
        else match item c with
          | (.error e, d) => (([], .fail e), d)
          | (.ok x, d) =>
            if d.current.kind = .symbol .comma then (([x], .again), d.advance) else
              (([x], .stop), d) := by
  have closes : Parser.atSymbol close c = (.ok (decide (c.current.kind = .symbol close)), c) := rfl
  have run : (Parser.commaRound close item) c = _ := Parser.bind_apply closes
  split
  · next hk =>
    rw [decide_eq_true hk] at run
    exact Parser.manyRound_ok run
  · next hk =>
    rw [decide_eq_false hk] at run
    rcases hi : item c with ⟨e | x, d⟩
    · exact Parser.manyRound_error (run.trans (Parser.bind_apply hi))
    · have comma : Parser.symbol? .comma d = if d.current.kind = .symbol .comma
          then (.ok true, d.advance) else (.ok false, d) := by
        have taken : Parser.take? (.symbol .comma) d = _ := Parser.take?_apply (.symbol .comma) d
        split at taken <;> exact (Parser.bind_apply taken).trans (by simp [*]; rfl)
      have rest := run.trans (Parser.bind_apply hi)
      dsimp only
      split at comma <;> rename_i hd
      · rw [if_pos hd]
        exact Parser.manyRound_ok (rest.trans (Parser.bind_apply comma))
      · rw [if_neg hd]
        exact Parser.manyRound_ok (rest.trans (Parser.bind_apply comma))

omit [Recastable α] in
private theorem commaRound_passes (close : Punctuation) (hi : ∀ c : Cursor, c.Passes (item c).2)
    (c : Cursor) : c.Passes (Parser.manyRound (Parser.commaRound close item) c).2 := by
  rw [commaRound_apply]
  have taken := hi c
  split
  · exact .refl c
  · rcases hc : item c with ⟨e | x, d⟩ <;> rw [hc] at taken
    · exact taken
    · dsimp only
      split
      · exact taken.trans (.advance d)
      · exact taken

/-- What comes after an item comes to the same, unless a comment is there. -/
theorem commaRound_echoed (close : Punctuation) (hi : Echoes k .level .lax item item)
    (c c' : Cursor) (abreast : Abreast k .level c c') :
    Echoed k (.round .level .lax) (Parser.manyRound (Parser.commaRound close item) c)
        (Parser.manyRound (Parser.commaRound close item) c')
      ∨ (Parser.manyRound (Parser.commaRound close item) c).1.2 = .stop
        ∧ k.Stalls (Parser.manyRound (Parser.commaRound close item) c).2 := by
  rw [commaRound_apply, commaRound_apply]
  have same := (abreast.current rfl).kind.eq_iff (.symbol close) rfl
  by_cases hk : c.current.kind = .symbol close
  · rw [if_pos hk, if_pos (same.1 hk)]
    exact .inl (.inr ⟨rfl, abreast.mono Stage.level_covers_lax⟩)
  rw [if_neg hk, if_neg (mt same.2 hk)]
  have both : Echoed k _ (item c) (item c') := hi.echoed c c' abreast
  rcases hc : item c with ⟨e | x, d⟩
  · rw [hc] at both
    rcases both with harmed | ⟨like, next⟩
    · exact .inl (.inl (harmed.passes (.refl d) fun f hf harms ↦ ⟨f, .inr hf, harms⟩))
    · rcases hc' : item c' with ⟨e' | x', d'⟩ <;> rw [hc'] at like next
      · exact .inl (.inr
          ⟨congrArg (fun e ↦ (([] : List α), RoundEnd.fail e)) (Except.error.inj like), next⟩)
      · cases like
  · rw [hc] at both
    dsimp only
    rcases both with harmed | ⟨like, next⟩
    · refine .inl (.inl (harmed.passes ?_ nofun))
      split
      · exact .advance d
      · exact .refl d
    · rcases hc' : item c' with ⟨e' | x', d'⟩ <;> rw [hc'] at like next
      · cases like
      · have read : k.Like [x] [x'] := congrArg ([·]) (Except.ok.inj like)
        rcases next.current_cases with ⟨hnext, pair⟩ | ⟨t, ts, hd, omitted⟩
        · have same := pair.kind.eq_iff (.symbol .comma) rfl
          by_cases hk : d.current.kind = .symbol .comma
          · rw [if_pos hk]
            dsimp only
            rw [if_pos (same.1 hk)]
            have after := next.advance hnext (next.ne_nil (by rw [hk]; nofun))
            rw [hk] at after
            exact .inl (.inr ⟨congrArg (·, RoundEnd.again) read, after⟩)
          · rw [if_neg hk]
            dsimp only
            rw [if_neg (mt same.2 hk)]
            exact .inl (.inr ⟨congrArg (·, RoundEnd.stop) read, next⟩)
        · rw [if_neg (k.kind_ne_of_omits hd omitted rfl)]
          exact .inr ⟨rfl, t, ts, hd, omitted, next.harms hd omitted⟩

/-- A list of items comes to the same if its items do; where a comment comes after an item, the
closing delimiter is missed. -/
theorem commaList_echoes (close : Punctuation) (hitem : ∀ n, Forward n 1 item item)
    (hi : Echoes k .level .lax item item) :
    Echoes k .level .level (Parser.commaList close item) (Parser.commaList close item) := by
  have hmoves : Advances (Parser.manyRound (Parser.commaRound close item)) := fun n ↦
    manyRound_moves (commaRound_moves close (hitem n))
  have passes := commaRound_passes close hi.passes
  have close_echoes (xs xs' : List α) (like : k.Like xs xs') : Echoes k .lax .level
      (do Parser.symbol close; return xs) (do Parser.symbol close; return xs') :=
    (symbol_echoes close).bind fun _ _ _ ↦ .pure like
  have closes (r : (List α × Option ParseError) × Cursor) : r.2.Passes
      (ExceptT.bindCont (fun xs ↦ do Parser.symbol close; return xs) (Parser.manyResult r).1
        (Parser.manyResult r).2).2 := by
    rcases r with ⟨⟨xs, e | e⟩, d⟩
    · obtain ⟨xs', like⟩ := k.exists_like xs
      exact (close_echoes xs xs' like).passes d
    · exact .refl d
  refine ⟨fun c ↦ (rounds_passes passes c).trans (closes _), fun c c' abreast ↦ ?_⟩
  have run := rounds_echoed recast_append hmoves passes
    (fun c c' abreast ↦ (commaRound_echoed close hi c c' abreast).imp_right .inr) c c' abreast
  rcases run with echoed | ⟨stop, stalled⟩
  · exact echoed.manyResult.bind
      ((passes_manyResult (rounds_passes passes c)).rejected.trans abreast.rejected)
      (fun _ _ like ↦ Echoes.bindCont close_echoes (fun _ ↦ rfl) like)
      fun _ _ failed harms c _ ↦ Echoes.bindCont_harmed failed harms c
  · rcases hr : rounds (Parser.manyRound (Parser.commaRound close item)) c with ⟨⟨xs, e⟩, d⟩
    rw [hr] at stop stalled
    obtain rfl : e = none := stop
    obtain ⟨t, ts, hd, omitted, harms⟩ := stalled
    have many : Parser.many (Parser.commaRound close item) c = (.ok xs, d) := Parser.many_ok hr
    have missed : Parser.expect (.symbol close) d = _ := expect_apply (.symbol close) d
    rw [if_neg (k.kind_ne_of_omits hd omitted rfl)] at missed
    have fails : Parser.commaList close item c = _ := (Parser.bind_apply many).trans
      (Parser.bind_apply (Parser.bind_apply missed))
    exact .inl ⟨_, .inr (by rw [ExceptT.run, fails]; rfl), harms _⟩

/-- Items in parentheses come to the same. -/
theorem parenthesized?_echoes (hitem : ∀ n, Forward n 1 item item)
    (hi : Echoes k .level .lax item item) :
    Echoes k .level .level (Parser.parenthesized? item) (Parser.parenthesized? item) := by
  refine (symbol?_echoes .leftParen).bind fun opens opens' same ↦ ?_
  obtain rfl : opens = opens' := same
  cases opens with
  | true => exact commaList_echoes _ hitem hi
  | false => exact .pure rfl

end Loops

/-! ## Recovery -/

omit [Recastable α] [Recastable β] [Recastable ρ] [Recastable σ] in
/-- An error that names a comment stays on the record. -/
theorem Likeness.Harms.mem_recover {e : ParseError} (h : k.Harms e) (hc : c.rejected = k.rejected) :
    e ∈ (c.recover e).errors := by
  have fresh : e.span ∉ c.rejected := hc ▸ h.reported
  have known : e ∈ (c.report e).errors := by
    rw [Cursor.report, if_neg (by simpa using fresh)]
    exact List.mem_append_right _ (List.mem_singleton_self e)
  exact (Cursor.Passes.skip (c.report e) _).errors.subset known

/-- What fails is recorded and left behind on both sides. -/
theorem recovering_echoes {p p' : Parser α} (h : Echoes k a b p p') :
    StepEchoes k a (.recovered a b) (Parser.recovering p) (Parser.recovering p') := by
  refine StepEchoes.bind h (fun r r' like ↦ ?_) fun r e failed harms c hc ↦ ?_
  · rcases r with e | x <;> rcases r' with e' | x'
    · exact ⟨fun c ↦ .recover c e, fun c c' abreast ↦
        .inr ⟨rfl, abreast.recover (Except.error.inj like)⟩⟩
    · cases like
    · cases like
    · exact StepEchoes.pure (congrArg some (Except.ok.inj like)) (.refl b)
  · rcases r with e' | x <;> cases failed
    exact ⟨e, .inl (harms.mem_recover hc), harms⟩

private theorem endOfLine_echoes (ha : a.begun = true) (he : a.even = true) :
    Echoes k a .lax Parser.endOfLine Parser.endOfLine := by
  refine .oneOf (fun x exact ↦ ?_) (fun _ _ _ ↦ .unexpected _) (fun _ ↦ rfl) (fun _ ↦ rfl)
  have stays : ({ a with ready := true }.facing [x]).Covers .lax :=
    ⟨nofun, fun _ ↦ he, fun _ ↦ ha, List.nil_prefix⟩
  cases x with
  | newline =>
    refine Echoes.bind (Echoes.take rfl nofun) fun _ _ _ ↦ .pure_of_covers rfl ?_
    exact ⟨nofun, fun _ ↦ rfl, fun _ ↦ Bool.or_eq_true_iff.2 (.inl ha), List.nil_prefix⟩
  | dedent | endOfFile => exact .pure_of_covers rfl stays
  | string | comment => cases exact
  | _ => exact .unexpected _

/-- A statement ends alike after tokens that are alike. -/
theorem endStatement_echoes : Echoes k .lax .lax Parser.endStatement Parser.endStatement := by
  have line := endOfLine_echoes (k := k) (a := .lax) rfl rfl
  have ends (c : Cursor) : Parser.endStatement c
      = if c.previous.any TokenKind.endsStatement then (.ok (), c) else Parser.endOfLine c := by
    split
    · next h => exact Parser.endStatement_apply_of_ended h
    · next h => exact Parser.endStatement_apply_of_not_ended (by simpa using h)
  refine ⟨fun c ↦ ?_, fun c c' abreast ↦ ?_⟩
  · change c.Passes (Parser.endStatement c).2
    rw [ends]
    split
    · exact .refl c
    · exact line.passes c
  · have same : c.previous.any TokenKind.endsStatement
      = c'.previous.any TokenKind.endsStatement := by
      have like := abreast.even rfl
      generalize c.previous = before at like ⊢
      generalize c'.previous = before' at like ⊢
      rcases before with _ | x <;> rcases before' with _ | x'
      · rfl
      · cases like
      · cases like
      · exact Likeness.Like.endsStatement (Option.some.inj like)
    change Echoed k _ (Parser.endStatement c) (Parser.endStatement c')
    rw [ends, ends, ← same]
    split
    · exact .inr ⟨rfl, abreast⟩
    · exact line.echoed c c' abreast

end

end ProseLang
