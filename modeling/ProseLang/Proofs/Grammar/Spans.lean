import ProseLang.Grammar.Statement

/-!
# Places of what is read

A construct spans what its parser takes: it starts where the token at the cursor starts, and ends
where the last token taken ends that is not layout (`oneStatement_spans`). Only the two ends of a
parser matter for this: the first token that it takes and the `spanFrom` that it closes with.
-/

namespace ProseLang.Parser

variable {α β : Type} {c d : Cursor} {g : Nested}

/-- Parsers one after the other give something when both of them do. -/
theorem bind_eq_ok {p : Parser α} {k : α → Parser β} {y : β} (h : (p >>= k) c = (.ok y, d)) :
    ∃ x a, p c = (.ok x, a) ∧ k x a = (.ok y, d) := by
  change ExceptT.bindCont k (p c).1 (p c).2 = _ at h
  rcases hp : p c with ⟨x | x, a⟩
  · rw [hp] at h
    cases h
  · rw [hp] at h
    exact ⟨x, a, rfl, h⟩

/-- Whether what a parser gives spans from `first` to the end of the last token taken. -/
def SpansFrom (span : α → Span) (first : Span) (p : Parser α) : Prop :=
  ∀ c x d, p c = (.ok x, d) → span x = ⟨first.start, d.lastEnd⟩

/-- Whether what a parser gives at a cursor spans the tokens that it takes. -/
def SpansTaken (span : α → Span) (c : Cursor) (p : Parser α) : Prop :=
  ∀ x d, p c = (.ok x, d) → span x = ⟨c.current.span.start, d.lastEnd⟩

namespace SpansFrom

variable {span : α → Span} {first : Span}

private theorem bind {p : Parser β} {k : β → Parser α} (h : ∀ x, SpansFrom span first (k x)) :
    SpansFrom span first (p >>= k) := by
  intro c y d run
  obtain ⟨x, a, -, rest⟩ := bind_eq_ok run
  exact h x a y d rest

private theorem bind_pure {f : β → α} {p : Parser β} (h : SpansFrom (fun x ↦ span (f x)) first p) :
    SpansFrom span first (do return f (← p)) := by
  intro c y d run
  obtain ⟨x, a, here, rest⟩ := bind_eq_ok run
  cases rest
  exact h c x d here

private theorem close {f : Span → α} (h : ∀ s, span (f s) = s) :
    SpansFrom span first (do return f (← spanFrom first)) := by
  intro c x d run
  cases run
  exact h _

private theorem throw (e : ParseError) : SpansFrom span first (throw e : Parser α) := by
  intro c x d run
  cases run

end SpansFrom

namespace SpansTaken

variable {span : α → Span} {part : β → Span}

private theorem bind_pure {f : β → α} {p : Parser β} {y : α} (h : SpansTaken part c p)
    (run : (do return f (← p) : Parser α) c = (.ok y, d)) (hf : ∀ x, span (f x) = part x) :
    span y = ⟨c.current.span.start, d.lastEnd⟩ := by
  obtain ⟨x, a, here, rest⟩ := bind_eq_ok run
  cases rest
  rw [hf, h x d here]

private theorem map {f : β → α} {p : Parser β} {y : α} (h : SpansTaken part c p)
    (run : (f <$> p) c = (.ok y, d)) (hf : ∀ x, span (f x) = part x) :
    span y = ⟨c.current.span.start, d.lastEnd⟩ := by
  rw [map_eq_pure_bind] at run
  exact bind_pure h run hf

private theorem unexpected (expected : String) :
    SpansTaken span c (Parser.unexpected expected : Parser α) := by
  intro x d run
  cases run

end SpansTaken

/-- A token that may be there is taken if it is there. -/
theorem take?_apply (kind : TokenKind) (c : Cursor) :
    take? kind c = if c.current.kind = kind then (.ok (some c.current), c.advance)
      else (.ok none, c) := by
  change (if decide (c.current.kind = kind) then some <$> take else return none : Parser _) c = _
  by_cases h : c.current.kind = kind
  · rw [if_pos h, if_pos (decide_eq_true h)]
    rfl
  · rw [if_neg h, if_neg (by simpa using h)]
    rfl

private theorem expect_eq_ok {kind : TokenKind} {t : Token} (h : expect kind c = (.ok t, d)) :
    t = c.current ∧ c.current.kind = kind := by
  obtain ⟨taken, a, here, rest⟩ := bind_eq_ok h
  rw [take?_apply] at here
  split at here
  · next hk =>
    cases here
    cases rest
    exact ⟨rfl, hk⟩
  · cases here
    cases rest

/-- A name is where the token is that it is read from. -/
theorem name_eq_ok {role : String} {x : Ident} (h : name role c = (.ok x, d)) :
    x.span = c.current.span := by
  obtain ⟨kind, a, here, rest⟩ := bind_eq_ok h
  cases here
  cases hk : c.current.kind
  case identifier =>
    rw [hk] at rest
    cases rest
    rfl
  all_goals
    rw [hk] at rest
    cases rest

/-- What is read from the token at the cursor has its place. -/
theorem string_eq_ok {role : String} {s : StringLit} (h : string role c = (.ok s, d)) :
    s.span = c.current.span := by
  obtain ⟨kind, a, here, rest⟩ := bind_eq_ok h
  cases here
  cases hk : c.current.kind
  case string =>
    rw [hk] at rest
    cases rest
    rfl
  all_goals
    rw [hk] at rest
    cases rest

private theorem discretion_eq_ok {role : String} {x : Discretion}
    (h : discretion role c = (.ok x, d)) : x.span = c.current.span := by
  obtain ⟨kind, a, here, rest⟩ := bind_eq_ok h
  cases here
  cases hk : c.current.kind
  case discretion =>
    rw [hk] at rest
    cases rest
    rfl
  all_goals
    rw [hk] at rest
    cases rest

/-- A parser whose value is changed gives something when it does. -/
theorem map_eq_ok {f : α → β} {p : Parser α} {y : β} (h : (f <$> p) c = (.ok y, d)) :
    ∃ x, p c = (.ok x, d) ∧ y = f x := by
  rw [map_eq_pure_bind] at h
  obtain ⟨x, a, here, rest⟩ := bind_eq_ok h
  cases rest
  exact ⟨x, here, rfl⟩

section

variable {span : α → Span}

/-- A construct that starts with a reserved word. -/
theorem keyword_spans {word : Keyword} {k : Span → Parser α}
    (h : ∀ first, SpansFrom span first (k first)) : SpansTaken span c (keyword word >>= k) := by
  intro x d run
  obtain ⟨first, a, here, rest⟩ := bind_eq_ok run
  obtain ⟨t, b, taken, given⟩ := bind_eq_ok here
  cases given
  rw [h t.span a x d rest, (expect_eq_ok taken).1]

/-- A construct that starts with a name. -/
theorem name_spans {role : String} {k : Ident → Parser α}
    (h : ∀ x, SpansFrom span x.span (k x)) : SpansTaken span c (name role >>= k) := by
  intro x d run
  obtain ⟨first, a, here, rest⟩ := bind_eq_ok run
  rw [h first a x d rest, name_eq_ok here]

/-- A construct that notes where it starts. -/
theorem cursor_spans {k : Cursor → Parser α} (h : SpansFrom span c.current.span (k c)) :
    SpansTaken span c (cursor >>= k) := h c

end

/-! ## The constructs -/

private theorem importSkill_spans : SpansTaken Import.span c importSkill := by
  apply keyword_spans
  intro first
  iterate 3
    apply SpansFrom.bind
    intro _
  exact .close fun _ ↦ rfl

/-- A session spans the tokens that it is read from. -/
theorem session_spans (pipes : Bool) :
    SpansTaken (fun s : Session ↦ s.span) c (session g pipes) := by
  apply keyword_spans
  intro first
  -- a name, a prompt and details may each be there or not
  apply SpansFrom.bind
  intro _
  dsimp only
  split
  all_goals
    iterate 2
      apply SpansFrom.bind
      intro _
    split
    all_goals
      iterate 4
        apply SpansFrom.bind
        intro _
      split
      all_goals
        apply SpansFrom.bind
        intro _
        exact .close fun _ ↦ rfl

/-- A session starts with its word. -/
theorem kind_of_session {pipes : Bool} {s : Session} (h : session g pipes c = (.ok s, d)) :
    c.current.kind = .keyword .session := by
  obtain ⟨first, a, here, -⟩ := bind_eq_ok h
  obtain ⟨t, b, taken, -⟩ := bind_eq_ok here
  exact (expect_eq_ok taken).2

private theorem agent_spans (pipes : Bool) :
    SpansTaken (fun a : Agent ↦ a.span) c (agent g pipes) := by
  apply keyword_spans
  intro first
  iterate 3
    apply SpansFrom.bind
    intro _
  dsimp only
  split
  · apply SpansFrom.bind
    intro _
    iterate 2
      apply SpansFrom.bind
      intro _
    exact .close fun _ ↦ rfl
  · iterate 2
      apply SpansFrom.bind
      intro _
    exact .close fun _ ↦ rfl

private theorem doAction_spans (pipes : Bool) : SpansTaken Action.span c (doAction g pipes) := by
  apply keyword_spans
  intro first
  apply SpansFrom.bind
  intro colon
  split
  · apply SpansFrom.bind
    intro body
    exact .close fun _ ↦ rfl
  · iterate 2
      apply SpansFrom.bind
      intro _
    exact .close fun _ ↦ rfl

/-- A pipe spans from its input to its last operation. -/
theorem pipeTail_spans (input : Expr) (first : Span) :
    SpansFrom (fun p : Pipe ↦ p.span) first (pipeTail g input first) := by
  apply SpansFrom.bind
  intro operations
  exact .close fun _ ↦ rfl

/-- A value starts where the token at the cursor does. -/
theorem primary_starts {pipes : Bool} {e : Expr} (h : primary g pipes c = (.ok e, d)) :
    e.span.start = c.current.span.start := by
  obtain ⟨kind, a, here, rest⟩ := bind_eq_ok h
  cases here
  cases hk : c.current.kind with
  | keyword word =>
    rw [hk] at rest
    cases word
    case session =>
      have spans : e.span = _ := (session_spans pipes).bind_pure rest fun _ ↦ rfl
      rw [spans]
    case do_ =>
      have spans : e.span = _ := (doAction_spans pipes).map rest fun _ ↦ rfl
      rw [spans]
    all_goals cases rest
  | string =>
    rw [hk] at rest
    obtain ⟨s, here, rfl⟩ := map_eq_ok rest
    exact congrArg Span.start (string_eq_ok here)
  | identifier =>
    rw [hk] at rest
    obtain ⟨x, here, rfl⟩ := map_eq_ok rest
    exact congrArg Span.start (name_eq_ok here)
  | discretion =>
    rw [hk] at rest
    obtain ⟨x, here, rfl⟩ := map_eq_ok rest
    exact congrArg Span.start (discretion_eq_ok here)
  | number =>
    rw [hk] at rest
    cases rest
    rfl
  | symbol mark =>
    rw [hk] at rest
    cases mark
    case leftBracket | leftBrace =>
      obtain ⟨t, a, taken, rest⟩ := bind_eq_ok rest
      cases taken
      obtain ⟨held, a, -, rest⟩ := bind_eq_ok rest
      cases rest
      rfl
    all_goals cases rest
  | comment | newline | indent | dedent | endOfFile | invalid =>
    rw [hk] at rest
    cases rest

private theorem blockDefinition_spans : SpansTaken (fun b : Block ↦ b.span) c
    (blockDefinition g) := by
  apply keyword_spans
  intro first
  iterate 3
    apply SpansFrom.bind
    intro _
  exact .close fun _ ↦ rfl

private theorem binding_spans (pipes : Bool) (kind : BindingKind) :
    SpansTaken (fun b : Binding ↦ b.span) c (binding g pipes kind) := by
  apply keyword_spans
  intro first
  iterate 3
    apply SpansFrom.bind
    intro _
  exact .close fun _ ↦ rfl

private theorem assignment_spans (pipes : Bool) :
    SpansTaken (fun b : Binding ↦ b.span) c (assignment g pipes) := by
  apply name_spans
  intro name
  iterate 2
    apply SpansFrom.bind
    intro _
  exact .close fun _ ↦ rfl

/-- What follows the word `for` of a loop over a collection that starts at `first`. -/
theorem forEach_spansFrom (pipes : Bool) (first : Span) :
    SpansFrom (fun f : ForEach ↦ f.span) first (forEach g pipes (some first)) := by
  iterate 3
    apply SpansFrom.bind
    intro _
  dsimp only
  split
  all_goals
    iterate 4
      apply SpansFrom.bind
      intro _
    exact .close fun _ ↦ rfl

private theorem forEach_spans (pipes : Bool) :
    SpansTaken (fun f : ForEach ↦ f.span) c (forEach g pipes none) := by
  apply keyword_spans
  intro first
  iterate 2
    apply SpansFrom.bind
    intro _
  dsimp only
  split
  all_goals
    iterate 4
      apply SpansFrom.bind
      intro _
    exact .close fun _ ↦ rfl

private theorem parallel_spans (pipes : Bool) : SpansTaken Statement.span c (parallel g pipes) := by
  apply keyword_spans
  intro first
  apply SpansFrom.bind
  intro collection
  split
  · apply SpansFrom.bind_pure
    exact forEach_spansFrom pipes first
  · iterate 4
      apply SpansFrom.bind
      intro _
    exact .close fun _ ↦ rfl

private theorem repeated_spans : SpansTaken (fun r : Repeat ↦ r.span) c (repeated g) := by
  apply keyword_spans
  intro first
  iterate 3
    apply SpansFrom.bind
    intro _
  exact .close fun _ ↦ rfl

private theorem loop_spans : SpansTaken (fun l : Loop ↦ l.span) c (loop g) := by
  apply keyword_spans
  intro first
  iterate 5
    apply SpansFrom.bind
    intro _
  exact .close fun _ ↦ rfl

private theorem attempt_spans : SpansTaken (fun t : Try ↦ t.span) c (attempt g) := by
  apply keyword_spans
  intro first
  iterate 3
    apply SpansFrom.bind
    intro _
  dsimp only
  split
  · apply SpansFrom.bind
    intro _
    exact .close fun _ ↦ rfl
  · exact .close fun _ ↦ rfl

private theorem throwStatement_spans : SpansTaken Throw.span c throwStatement := by
  apply keyword_spans
  intro first
  apply SpansFrom.bind
  intro kind
  dsimp only
  split
  all_goals
    apply SpansFrom.bind
    intro message
    exact .close fun _ ↦ rfl

private theorem choice_spans : SpansTaken (fun x : Choice ↦ x.span) c (choice g) := by
  apply keyword_spans
  intro first
  iterate 3
    apply SpansFrom.bind
    intro _
  dsimp only
  -- the block has to be there, and it has to have an option
  split
  · apply SpansFrom.bind
    intro _
    iterate 4
      apply SpansFrom.bind
      intro _
    split
    · exact .bind fun _ ↦ .close fun _ ↦ rfl
    · exact .close fun _ ↦ rfl
  · iterate 4
      apply SpansFrom.bind
      intro _
    split
    · exact .bind fun _ ↦ .close fun _ ↦ rfl
    · exact .close fun _ ↦ rfl

/-- A conditional branch spans the tokens that it is read from. -/
theorem branch_spans (word : Keyword) : SpansTaken (fun b : Branch ↦ b.span) c (branch g word) := by
  apply keyword_spans
  intro first
  iterate 2
    apply SpansFrom.bind
    intro _
  exact .close fun _ ↦ rfl

private theorem conditional_spans : SpansTaken (fun x : Conditional ↦ x.span) c
    (conditional g) := by
  apply cursor_spans
  iterate 3
    apply SpansFrom.bind
    intro _
  exact .close fun _ ↦ rfl

private theorem pipeStatement_spans (pipes : Bool) :
    SpansTaken Statement.span c (pipeStatement g pipes) := by
  apply cursor_spans
  iterate 2
    apply SpansFrom.bind
    intro _
  split
  · apply SpansFrom.bind_pure
    exact pipeTail_spans _ _
  · exact .throw _

/-- A statement spans the tokens that it is read from. -/
theorem oneStatement_spans (pipes : Bool) (hne : c.rest ≠ []) :
    SpansTaken Statement.span c (oneStatement g pipes) := by
  intro s d run
  obtain ⟨kind, a, here, rest⟩ := bind_eq_ok run
  cases here
  have pipe (rest : pipeStatement g pipes c = (.ok s, d)) :
      s.span = ⟨c.current.span.start, d.lastEnd⟩ := pipeStatement_spans pipes s d rest
  cases hk : c.current.kind with
  | comment text =>
    rw [hk] at rest
    cases rest
    obtain ⟨t, ts, ht⟩ := List.exists_cons_of_ne_nil hne
    have notLayout : t.kind.isLayout = false := by
      have : t.kind = .comment text := by simpa [Cursor.current, ht] using hk
      rw [this]
      rfl
    simp [Statement.span, Cursor.advance, Cursor.current, ht, notLayout]
  | keyword word =>
    rw [hk] at rest
    cases word
    case import_ => exact importSkill_spans.map rest fun _ ↦ rfl
    case agent => exact (agent_spans pipes).bind_pure rest fun _ ↦ rfl
    case block => exact blockDefinition_spans.map rest fun _ ↦ rfl
    case let_ => exact (binding_spans pipes .variable).map rest fun _ ↦ rfl
    case const => exact (binding_spans pipes .constant).map rest fun _ ↦ rfl
    case do_ => exact (doAction_spans pipes).map rest fun _ ↦ rfl
    case parallel => exact parallel_spans pipes s d rest
    case repeat_ => exact repeated_spans.map rest fun _ ↦ rfl
    case for_ => exact (forEach_spans pipes).map rest fun _ ↦ rfl
    case loop => exact loop_spans.map rest fun _ ↦ rfl
    case try_ => exact attempt_spans.map rest fun _ ↦ rfl
    case throw => exact throwStatement_spans.map rest fun _ ↦ rfl
    case choice => exact choice_spans.map rest fun _ ↦ rfl
    case if_ => exact conditional_spans.map rest fun _ ↦ rfl
    all_goals exact SpansTaken.unexpected _ s d rest
  | identifier text =>
    rw [hk] at rest
    obtain ⟨next, a, here, rest⟩ := bind_eq_ok rest
    cases here
    cases hnext : c.next.kind with
    | symbol mark =>
      rw [hnext] at rest
      cases mark
      case equals => exact (assignment_spans pipes).map rest fun _ ↦ rfl
      case colon => cases rest
      all_goals exact pipe rest
    | _ =>
      rw [hnext] at rest
      exact pipe rest
  | symbol mark =>
    rw [hk] at rest
    cases mark
    case leftBracket => exact pipe rest
    case leftBrace => exact pipe rest
    all_goals exact SpansTaken.unexpected _ s d rest
  | string | number | discretion =>
    rw [hk] at rest
    exact pipe rest
  | newline | indent | dedent | endOfFile | invalid =>
    rw [hk] at rest
    exact SpansTaken.unexpected _ s d rest

end ProseLang.Parser
