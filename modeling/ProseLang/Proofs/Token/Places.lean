import ProseLang.Proofs.Token.Origins

/-!
# Places in a text

A position is valid in a text if walking the text from its start comes by it (`Position.Valid`).
Every token of a text goes from one valid position forward to another, and so do the names and the
escapes in its strings and whatever is wrong with its characters (`tokenize_valid`).
-/

namespace ProseLang

/-- Whether walking a text from its start comes by a position. -/
def Position.Valid (text : List Char) (p : Position) : Prop :=
  ∃ before after, text = before ++ after ∧ p = Position.start.after before

/-- Whether a span goes from one position of a text forward to another. -/
structure Span.Valid (text : List Char) (s : Span) : Prop where
  starts : s.start.Valid text
  stops : s.stop.Valid text
  forward : s.start.offset ≤ s.stop.offset

/-- The places of a token and of the names and the escapes in it. -/
def Token.places (t : Token) : List Span :=
  t.span :: match t.kind with
    | .string literal => literal.holes.map Prod.snd ++ literal.escapes.map Escape.span
    | _ => []

variable {text : List Char} {l : LexemeAt}

/-- A stretch of a text. -/
theorem Span.Valid.of_stretch {before inner after : List Char}
    (h : text = before ++ inner ++ after) :
    Span.Valid text ⟨Position.start.after before, Position.start.after (before ++ inner)⟩ where
  starts := ⟨before, inner ++ after, by rw [h, List.append_assoc], rfl⟩
  stops := ⟨before ++ inner, after, h, rfl⟩
  forward := by
    rw [Position.offset_after, Position.offset_after, utf8Length_append]
    omega

/-! ## Lexemes -/

/-- A stretch of a lexeme. -/
theorem LexemeAt.valid_inner (h : l ∈ lexemes .start text) {left inner right : List Char}
    (cut : l.text = left ++ inner ++ right) :
    Span.Valid text ⟨l.span.start.after left, l.span.start.after (left ++ inner)⟩ := by
  obtain ⟨before, after, whole, place⟩ := span_of_mem_lexemes h
  rw [place, ← Position.after_append, ← Position.after_append, ← List.append_assoc]
  have split : text = (before ++ left) ++ inner ++ (right ++ after) := by
    rw [whole, cut]
    simp only [List.append_assoc]
  exact .of_stretch split

private theorem LexemeAt.valid (h : l ∈ lexemes .start text) : l.span.Valid text := by
  obtain ⟨before, after, whole, place⟩ := span_of_mem_lexemes h
  rw [place]
  exact .of_stretch whole

private theorem LexemeAt.written_of_quoted (h : l ∈ lexemes .start text) {triple : Bool}
    {body : List Char}
    (quoted : l.lexeme = .quoted triple body) : l.text = StringLiteral.written triple body := by
  have written := isWritten_of_mem_lexemes h
  rw [quoted] at written
  exact written.symm

/-- The escapes of a literal. -/
theorem LexemeAt.valid_escapes (h : l ∈ lexemes .start text) {triple : Bool} {body : List Char}
    (quoted : l.lexeme = .quoted triple body) :
    ∀ e ∈ (StringLiteral.decode l.span.start triple body).escapes, e.span.Valid text := by
  intro e he
  obtain ⟨before, inner, after, cut, place⟩ := StringLiteral.exists_of_mem_escapes he
  rw [place]
  exact valid_inner h ((written_of_quoted h quoted).trans cut)

/-- The names in a literal. -/
theorem LexemeAt.valid_holes (h : l ∈ lexemes .start text) {triple : Bool} {body : List Char}
    (quoted : l.lexeme = .quoted triple body) :
    ∀ hole ∈ (StringLiteral.decode l.span.start triple body).holes, hole.2.Valid text := by
  intro hole hhole
  obtain ⟨before, after, cut, place⟩ := StringLiteral.exists_of_mem_holes hhole
  rw [place]
  exact valid_inner h ((written_of_quoted h quoted).trans cut)

/-- The blanks at the start of a line. -/
theorem Leads.valid {s : Span} (h : Leads (lexemes .start text) s) : s.Valid text := by
  obtain ⟨before, l, after, whole, stop, start, -⟩ := h
  have ordered := (lexemes_ordered .start text).2
  have among (m : LexemeAt) (hm : m ∈ before) : m ∈ lexemes .start text :=
    whole ▸ List.mem_append_left _ hm
  have hl : l ∈ lexemes .start text := whole ▸ List.mem_append_right _ List.mem_cons_self
  rw [whole] at ordered
  refine ⟨?_, stop ▸ (LexemeAt.valid hl).starts, ?_⟩
  · rcases start with start | ⟨m, hm, -, start⟩
    · exact ⟨[], text, rfl, start⟩
    · exact start ▸ (LexemeAt.valid (among m hm)).stops
  · rcases start with start | ⟨m, hm, -, start⟩
    · rw [start]
      exact Nat.zero_le _
    · rw [stop, ← start]
      exact (List.pairwise_append.1 ordered).2.2 m hm l List.mem_cons_self

/-! ## Tokens and faults -/

/-- Layout has one place. -/
theorem Token.places_of_isLayout {t : Token} (h : t.kind.isLayout = true) :
    t.places = [t.span] := by
  rcases t with ⟨kind, span⟩
  cases kind with
  | string literal => cases h
  | _ => rfl

private theorem Token.Arises.valid {t : Token}
    (h : t.Arises (lexemes .start text) (Position.start.after text)) :
    ∀ s ∈ t.places, s.Valid text := by
  cases h with
  | @lexeme l t hl ht =>
    have place := LexemeAt.valid hl
    unfold LexemeAt.token? at ht
    split at ht <;> cases ht
    case h_8 triple body quoted =>
      refine List.forall_mem_cons.2 ⟨place, List.forall_mem_append.2 ⟨?_, ?_⟩⟩
      · exact List.forall_mem_map.2 (LexemeAt.valid_holes hl quoted)
      · exact List.forall_mem_map.2 (LexemeAt.valid_escapes hl quoted)
    all_goals exact List.forall_mem_singleton.2 place
  | lineBreak hl => exact List.forall_mem_singleton.2 (LexemeAt.valid hl)
  | @point kind p layout start =>
    have reached : p.Valid text := by
      rcases start with rfl | ⟨l, hl, rfl⟩
      · exact ⟨text, [], (List.append_nil _).symm, rfl⟩
      · exact (LexemeAt.valid hl).starts
    rw [Token.places_of_isLayout layout]
    exact List.forall_mem_singleton.2 ⟨reached, reached, Nat.le_refl _⟩
  | indent leads => exact List.forall_mem_singleton.2 leads.valid

private theorem LexError.Arises.valid {e : LexError} (h : e.Arises (lexemes .start text)) :
    e.span.Valid text := by
  cases h with
  | @lexeme l e hl he =>
    unfold LexemeAt.faults at he
    split at he
    · next quoted =>
      obtain ⟨escape, member, rfl⟩ := List.mem_map.1 he
      exact LexemeAt.valid_escapes hl quoted escape (List.mem_filter.1 member).1
    · rw [List.mem_singleton.1 he]
      exact LexemeAt.valid hl
    · cases he
  | @tab l before after hl cut =>
    have split : l.text = before ++ ['\t'] ++ after := by rw [cut, List.append_assoc]; rfl
    have place := LexemeAt.valid_inner hl split
    rwa [Position.after_append] at place
  | misfit leads => exact leads.valid

/-- Every token of a text, every name and escape in its strings and every lexical error stands in
the text. -/
theorem tokenize_valid (source : String) :
    (∀ t ∈ (tokenize source).tokens, ∀ s ∈ t.places, s.Valid source.toList)
      ∧ ∀ e ∈ (tokenize source).errors, e.span.Valid source.toList := by
  obtain ⟨tokens, errors⟩ := tokens_arise source.toList
  exact ⟨fun t ht ↦ (tokens t ht).valid, fun e he ↦ (errors e he).valid⟩

/-! ## Stretches of tokens -/

/-- A lexeme that starts with a line feed is a line break. -/
theorem LexemeAt.isLineBreak {p : Position} (h : l ∈ lexemes p text) {rest : List Char}
    (feed : l.text = '\n' :: rest) : l.lexeme = .lineBreak := by
  fun_induction lexemes p text with
  | case1 => cases h
  | case2 p c text cut ih =>
    rcases List.mem_cons.1 h with rfl | h
    · have whole := cut.taken_append_rest
      rw [show cut.taken = _ from feed, List.cons_append, List.cons.injEq] at whole
      obtain ⟨rfl, -⟩ := whole
      rfl
    · exact ih h

/-- A token that stands for text takes up a stretch of it, and does not start with a line feed. -/
theorem exists_stretch {source : String} {t : Token}
    (h : t ∈ visible (tokenize source).tokens) :
    ∃ before c inner, before ++ c :: inner <+: source.toList ∧ c ≠ '\n'
      ∧ t.span = ⟨Position.start.after before, Position.start.after (before ++ c :: inner)⟩
      ∧ ∀ written ∈ t.kind.text?, written.toList = c :: inner := by
  rw [tokenize, visible_tokenizeChars] at h
  obtain ⟨l, hl, token⟩ := List.mem_filterMap.1 h
  obtain ⟨before, after, whole, place⟩ := span_of_mem_lexemes hl
  obtain ⟨same, written⟩ := LexemeAt.token?_eq_some (isWritten_of_mem_lexemes hl) token
  obtain ⟨c, inner, cut⟩ := List.exists_cons_of_ne_nil (text_ne_nil_of_mem_lexemes hl)
  rw [cut] at whole place written
  refine ⟨before, c, inner, whole ▸ List.prefix_append _ _, ?_, same.trans place, written⟩
  rintro rfl
  rw [LexemeAt.token?, LexemeAt.isLineBreak hl cut] at token
  cases token

end ProseLang
