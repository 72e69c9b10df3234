import ProseLang.Proofs.Program.Recast
import ProseLang.Proofs.Token.Layout
import ProseLang.Proofs.Token.Lexeme

/-!
# Layout after a text that has ended

The tokens of a text do not depend on where it starts (`Layout.Alike`). A text that starts at the
left margin, after lines that have ended and closed their brackets, gives the tokens it gives
alone, after those that end the last line and every block before it (`tokensOf_append`).
-/

namespace ProseLang

/-! ## Texts at other places -/

instance : Recastable LexemeAt where
  recast r l := { l with span := recast r l.span }
  recast_recast q r l := by simp

/-- The lexemes of a text do not depend on where it starts. -/
theorem bare_lexemes (p q : Position) (text : List Char) :
    recast .bare (lexemes p text) = recast .bare (lexemes q text) := by
  fun_induction lexemes p text generalizing q with
  | case1 => rw [lexemes]
  | case2 p c text cut ih =>
    rw [lexemes, recast_cons, recast_cons, ih (q.after cut.taken)]
    rfl

private theorem mapSpan_consText (f : Span → Span) (text : List Char) (segments : List Segment) :
    (Segment.consText text segments).map (Segment.mapSpan f)
      = Segment.consText text (segments.map (Segment.mapSpan f)) := by
  cases segments with
  | nil => rfl
  | cons s segments => cases s <;> rfl

private theorem bare_segments (p q : Position) (pieces : List Piece) :
    (Segment.ofPieces (Piece.locate p pieces)).map (Segment.mapSpan (recast .bare))
      = (Segment.ofPieces (Piece.locate q pieces)).map (Segment.mapSpan (recast .bare)) := by
  induction pieces generalizing p q with
  | nil => rfl
  | cons x pieces ih =>
    have rest := ih (p.after x.source) (q.after x.source)
    cases x with
    | hole name => exact congrArg (_ :: ·) rest
    | plain c => simp only [Piece.locate, Segment.ofPieces, mapSpan_consText, rest]
    | escape c => simp only [Piece.locate, Segment.ofPieces, mapSpan_consText, rest]

private theorem bare_escapes (p q : Position) (pieces : List Piece) :
    (Escape.ofPieces (Piece.locate p pieces)).map (fun e ↦ { e with span := recast .bare e.span })
      = (Escape.ofPieces (Piece.locate q pieces)).map fun e ↦
        { e with span := recast .bare e.span } := by
  induction pieces generalizing p q with
  | nil => rfl
  | cons x pieces ih =>
    have rest := ih (p.after x.source) (q.after x.source)
    cases x with
    | escape c => exact congrArg (_ :: ·) rest
    | plain c => exact rest
    | hole name => exact rest

/-- The literal of a body does not depend on where it starts. -/
theorem bare_decode (p q : Position) (triple : Bool) (body : List Char) :
    recast .bare (StringLiteral.decode p triple body) = recast .bare
    (StringLiteral.decode q triple body) := by
  have segments := bare_segments (p.after (StringLiteral.quotes triple))
    (q.after (StringLiteral.quotes triple)) (Piece.read body)
  have escapes := bare_escapes (p.after (StringLiteral.quotes triple))
    (q.after (StringLiteral.quotes triple)) (Piece.read body)
  change StringLiteral.mk _ _ _ _ _ = StringLiteral.mk _ _ _ _ _
  rw [StringLiteral.mk.injEq]
  exact ⟨rfl, rfl, segments, escapes, rfl⟩

/-- Lexemes that differ in their place only are the same lexeme with the same text. -/
theorem lexeme_of_bare {l m : LexemeAt} (h : recast .bare l = recast .bare m) :
    l.lexeme = m.lexeme ∧ l.text = m.text := by
  obtain ⟨lexeme, text, -⟩ := LexemeAt.mk.inj h
  exact ⟨lexeme, text⟩

/-- What a lexeme is does not depend on where it stands. -/
theorem bare_kind? {l m : LexemeAt} (h : recast .bare l = recast .bare m) :
    recast .bare l.kind? = recast .bare m.kind? := by
  obtain ⟨lexeme, text, span⟩ := l
  obtain ⟨rfl, rfl⟩ : lexeme = m.lexeme ∧ text = m.text := lexeme_of_bare h
  unfold LexemeAt.kind?
  dsimp only
  split <;> first | rfl | exact congrArg (some <| TokenKind.string ·) (bare_decode _ _ _ _)

namespace Layout

/-- Whether two layouts differ in places only. -/
structure Alike (s t : Layout) : Prop where
  indents : s.indents = t.indents
  depth : s.depth = t.depth
  hasContent : s.hasContent = t.hasContent
  pending : s.pending.isSome = t.pending.isSome
  held : recast .bare s.held = recast .bare t.held
  lead : s.lead = t.lead

variable {s t : Layout}

private theorem bare_dedents (n : Nat) (p q : Position) :
    recast .bare (dedents n p) = recast .bare (dedents n q) := by
  simp only [recast, dedents, List.map_replicate, Recast.place_bare]

private theorem Alike.ended (h : s.Alike t) : recast .bare s.ended = recast .bare t.ended := by
  have := h.pending
  unfold Layout.ended
  cases hs : s.pending <;> cases ht : t.pending <;> simp_all

/-- Layouts that are alike close the same blocks. -/
theorem Alike.closing (h : s.Alike t) (p q : Position) :
    recast .bare (s.closing p) = recast .bare (t.closing q) := by
  have pending := h.pending
  simp only [Layout.closing, recast_append, h.held, h.indents, h.hasContent,
    bare_dedents _ p q]
  congr 2
  cases hs : s.pending <;> cases ht : t.pending <;> simp_all
  split <;> rfl

/-- The place of a tab is known if there is one. -/
theorem isSome_leadTab? (s : Layout) : s.leadTab?.isSome = (s.lead.findIdx? (· = '\t')).isSome := by
  rw [leadTab?, Option.isSome_map]

private theorem Alike.startLine (h : s.Alike t) (isPipe : Bool) (p q : Position) :
    (s.startLine isPipe p).1.Alike (t.startLine isPipe q).1
      ∧ recast .bare (s.startLine isPipe p).2.tokens = recast .bare
      (t.startLine isPipe q).2.tokens := by
  have width : s.width = t.width := congrArg (List.headD · 0) h.indents
  have ended := h.ended
  simp only [Layout.ended] at ended
  simp only [Layout.startLine, isSome_leadTab?, h.indents, h.pending, h.lead, width]
  generalize (if (t.lead.findIdx? (· = '\t')).isSome = true then t.width else t.lead.length) = w
  split
  · exact ⟨⟨rfl, h.depth, h.hasContent, rfl, rfl, rfl⟩, by
      rw [recast_append, recast_append, h.held, bare_dedents _ p q]⟩
  · split
    · exact ⟨⟨rfl, h.depth, h.hasContent, rfl, rfl, rfl⟩, by
        rw [recast_append, recast_append, ended, recast_cons, recast_cons, h.held]
        rfl⟩
    · exact ⟨⟨rfl, h.depth, h.hasContent, rfl, rfl, rfl⟩, by
        rw [recast_append, recast_append, recast_append, recast_append, ended, h.held,
          bare_dedents _ p q]⟩

/-- The number of open brackets after a token. -/
def depthAfter (k : TokenKind) (depth : Nat) : Nat :=
  match k with
  | .symbol mark => if mark.opens then depth + 1 else if mark.closes then depth - 1 else depth
  | _ => depth

private theorem depthAfter_congr {k k' : TokenKind} (h : recast .bare k = recast .bare k') :
    depthAfter k = depthAfter k' := by
  have same : ∀ k, depthAfter (recast .bare k) = depthAfter k := fun k ↦ by cases k <;> rfl
  rw [← same k, h, same]

/-- The layout with the start of a line before a token, if the token starts one. -/
def opening (s : Layout) (k : TokenKind) (p : Position) : Layout × Tokenized :=
  if s.depth = 0 && !s.hasContent then s.startLine (k = .symbol .pipe) p else (s, {})

/-- What a token does to the layout, and what it comes to. -/
theorem token_eq (s : Layout) (k : TokenKind) (span : Span) :
    s.token k span =
      ({ (s.opening k span.start).1 with
          depth := depthAfter k (s.opening k span.start).1.depth, hasContent := true },
        (s.opening k span.start).2 ++ .ofTokens [⟨k, span⟩]) := rfl

private theorem Alike.token (h : s.Alike t) {k k' : TokenKind}
    (hk : recast .bare k = recast .bare k') (span span' : Span) :
    (s.token k span).1.Alike (t.token k' span').1
      ∧ recast .bare (s.token k span).2.tokens = recast .bare (t.token k' span').2.tokens := by
  have pipe : decide (k = .symbol .pipe) = decide (k' = .symbol .pipe) := by
    refine decide_eq_decide.2 ?_
    rw [← bare_eq_iff (k := k) (by simp), hk, bare_eq_iff (by simp)]
  obtain ⟨alike, tokens⟩ : (s.opening k span.start).1.Alike (t.opening k' span'.start).1
      ∧ recast .bare (s.opening k span.start).2.tokens
        = recast .bare (t.opening k' span'.start).2.tokens := by
    unfold opening
    rw [h.depth, h.hasContent, pipe]
    split
    · exact h.startLine _ _ _
    · exact ⟨h, rfl⟩
  have last : recast .bare (⟨k, span⟩ : Token) = recast .bare ⟨k', span'⟩ := by
    rw [recast_token, recast_token, hk]
    rfl
  rw [token_eq, token_eq]
  refine ⟨⟨alike.indents, by rw [alike.depth, depthAfter_congr hk], rfl, alike.pending, alike.held,
    alike.lead⟩, ?_⟩
  simp only [Tokenized.tokens_append, Tokenized.ofTokens, recast_append, tokens, recast_cons, last]

/-- Layouts that are alike stay alike, and lexemes come to the same tokens. -/
theorem Alike.step (h : s.Alike t) {l m : LexemeAt} (hl : recast .bare l = recast .bare m) :
    (s.step l).1.Alike (t.step m).1
      ∧ recast .bare (s.step l).2.tokens = recast .bare (t.step m).2.tokens := by
  obtain ⟨lexeme, text⟩ := lexeme_of_bare hl
  have kinds := bare_kind? hl
  cases hk : l.kind? with
  | some k =>
    obtain ⟨k', hk', same⟩ : ∃ k', m.kind? = some k' ∧ recast .bare k = recast .bare k' := by
      cases hm : m.kind? <;> simp_all
    rw [step_of_kind? hk, step_of_kind? hk']
    exact h.token same _ _
  | none =>
    rcases LexemeAt.lexeme_of_kind?_none hk with hl | hl | hl
    · rw [step_of_blank hl, step_of_blank (lexeme ▸ hl)]
      exact ⟨⟨h.indents, h.depth, h.hasContent, h.pending, h.held, text⟩, rfl⟩
    · rw [step_of_lineBreak hl, step_of_lineBreak (lexeme ▸ hl)]
      refine ⟨?_, rfl⟩
      simp only [lineBreak, h.depth, h.hasContent]
      split
      · exact ⟨h.indents, rfl, rfl, h.pending, h.held, rfl⟩
      · exact ⟨h.indents, rfl, rfl, rfl, h.held, rfl⟩
    · rw [step_of_comment hl, step_of_comment (lexeme ▸ hl)]
      simp only [comment, h.depth, h.hasContent, text]
      split
      · exact ⟨h, rfl⟩
      · exact ⟨⟨h.indents, rfl, rfl, h.pending, by
          rw [recast_append, recast_append, h.held]
          rfl, h.lead⟩, rfl⟩

end Layout

/-- What lexemes give does not depend on where they stand. -/
theorem runLayout_alike {s t : Layout} (h : s.Alike t) {ls ms : List LexemeAt}
    (hl : recast .bare ls = recast .bare ms) :
    (runLayout s ls).1.Alike (runLayout t ms).1
      ∧ recast .bare (runLayout s ls).2.tokens = recast .bare (runLayout t ms).2.tokens := by
  induction ls generalizing s t ms with
  | nil =>
    obtain rfl : ms = [] := List.map_eq_nil_iff.1 hl.symm
    exact ⟨h, rfl⟩
  | cons l ls ih =>
    cases ms with
    | nil => contradiction
    | cons m ms =>
      obtain ⟨first, rest⟩ := List.cons.inj hl
      obtain ⟨alike, tokens⟩ := h.step first
      obtain ⟨alike', tokens'⟩ := ih alike rest
      refine ⟨alike', ?_⟩
      simp only [runLayout, Tokenized.tokens_append, recast_append, tokens, tokens']

/-! ## Texts at the left margin -/

namespace Layout

variable {s t s₀ : Layout} {isPipe : Bool} {p : Position}

/-- A line at the left margin ends the line before it and every block. -/
theorem startLine_margin (isPipe : Bool) (p : Position)
    (hlead : s.lead = []) (hpos : ∀ w ∈ s.indents, 0 < w)
    (hpipe : (isPipe && s.pending.isSome) = false) :
    s.startLine isPipe p = ({ s with indents := [], pending := none, held := [] },
      ⟨s.ended ++ dedents s.indents.length p ++ s.held, []⟩) := by
  have all : s.indents.takeWhile (0 < ·) = s.indents := by
    rw [← List.append_nil s.indents, List.takeWhile_append_of_pos (by simpa using hpos)]
    simp
  have none : s.indents.dropWhile (0 < ·) = [] := by
    rw [← List.append_nil s.indents, List.dropWhile_append_of_pos (by simpa using hpos)]
    rfl
  simp [Layout.startLine, leadTab?, hlead, hpipe, all, none, Layout.ended]

/-- A line further to the right opens a block, or is indented with a tab. -/
theorem startLine_indented (hlead : s.lead ≠ []) (fresh : s.indents = [])
    (hpending : s.pending = none) (clean : (s.startLine isPipe p).2.errors = []) :
    ∃ span, (s.startLine isPipe p).2.tokens = ⟨.indent, span⟩ :: s.held := by
  have noTab : s.leadTab? = none := by
    cases tab : s.leadTab? with
    | none => rfl
    | some span =>
      simp only [Layout.startLine, tab, Option.isSome_some, if_true] at clean
      split at clean
      · contradiction
      · split at clean <;> simp at clean
  have deeper : 0 < s.lead.length := List.length_pos_iff.2 hlead
  exact ⟨_, by simp [Layout.startLine, noTab, hpending, width, fresh, deeper]; rfl⟩

/-- The blocks of a layout are not at the left margin. -/
theorem indents_step {l : LexemeAt} (hpos : ∀ w ∈ s.indents, 0 < w) :
    ∀ w ∈ (s.step l).1.indents, 0 < w := by
  cases hk : l.kind? with
  | some k =>
    rw [step_of_kind? hk]
    change ∀ w ∈ (s.opening k l.span.start).1.indents, 0 < w
    unfold opening
    split
    · rcases s.startLine_cases (k = .symbol .pipe) l.span.start with
        ⟨width, _, deeper, next, -⟩ | ⟨_, kept, -, suffix, next, -⟩
      · rw [next]
        exact List.forall_mem_cons.2 ⟨Nat.lt_of_le_of_lt (Nat.zero_le _) deeper, hpos⟩
      · rw [next]
        exact fun w hw ↦ hpos w (suffix.subset hw)
    · exact hpos
  | none =>
    rcases LexemeAt.lexeme_of_kind?_none hk with hl | hl | hl
    · rw [step_of_blank hl]
      exact hpos
    · rw [step_of_lineBreak hl]
      simp only [lineBreak]
      split <;> exact hpos
    · rw [step_of_comment hl]
      simp only [comment]
      split <;> exact hpos

/-- Whether a layout is between lines, outside of brackets. -/
structure Rests (s : Layout) : Prop where
  depth : s.depth = 0
  hasContent : s.hasContent = false

private theorem Rests.lineBreak (h : s.Rests) (span : Span) :
    s.lineBreak span = { s with lineStart := span.stop, lead := [] } := by
  rw [Layout.lineBreak, if_pos (by simp [h.hasContent])]

private theorem Rests.comment (h : s.Rests) (text : String) (span : Span) :
    s.comment text span = ({ s with held := s.held ++ [⟨.comment text, span⟩] }, {}) := by
  rw [Layout.comment, if_neg (by simp [h.hasContent, h.depth])]

private theorem Rests.opening (h : s.Rests) (k : TokenKind) (p : Position) :
    s.opening k p = s.startLine (k = .symbol .pipe) p := by
  rw [Layout.opening, if_pos (by simp [h.hasContent, h.depth])]

private theorem Rests.closing (h : s.Rests) (p : Position) :
    s.closing p = s.ended ++ dedents s.indents.length p ++ s.held := by
  rw [Layout.closing, h.hasContent, Layout.ended]
  cases s.pending <;> rfl

/-- Whether a layout is where another one is, after lines that have ended. -/
structure Resumes (s₀ s t : Layout) : Prop where
  indents : s.indents = s₀.indents
  pending : s.pending = s₀.pending
  held : recast .bare s.held = recast .bare s₀.held ++ recast .bare t.held
  lead : s.lead = t.lead
  rests : s.Rests
  alone : t.Rests
  fresh : t.indents = [] ∧ t.pending = none
  comments : onlyComments t.held = true

private theorem Resumes.closing (h : Resumes s₀ s t) (hc : s₀.hasContent = false)
    (p q r : Position) :
    recast .bare (s.closing p) = recast .bare (s₀.closing q) ++ recast .bare (t.closing r) := by
  simp only [Layout.closing, h.indents, h.pending, h.rests.hasContent, h.alone.hasContent,
    h.fresh, hc, recast_append, h.held, bare_dedents _ p q]
  simp [dedents]

/-- A lexeme that is no token changes nothing in how a text resumes. -/
theorem Resumes.step (h : Resumes s₀ s t) {l m : LexemeAt}
    (hl : recast .bare l = recast .bare m) (hk : l.kind? = none) :
    Resumes s₀ (s.step l).1 (t.step m).1 ∧ (s.step l).2 = {} ∧ (t.step m).2 = {} := by
  obtain ⟨lexeme, text⟩ := lexeme_of_bare hl
  rcases LexemeAt.lexeme_of_kind?_none hk with hl | hl | hl
  · rw [step_of_blank hl, step_of_blank (lexeme ▸ hl)]
    exact ⟨{ h with lead := text, rests := ⟨h.rests.1, h.rests.2⟩, alone := ⟨h.alone.1, h.alone.2⟩ },
      rfl, rfl⟩
  · rw [step_of_lineBreak hl, step_of_lineBreak (lexeme ▸ hl), h.rests.lineBreak, h.alone.lineBreak]
    exact ⟨{ h with lead := rfl, rests := ⟨h.rests.1, h.rests.2⟩, alone := ⟨h.alone.1, h.alone.2⟩ },
      rfl, rfl⟩
  · rw [step_of_comment hl, step_of_comment (lexeme ▸ hl), h.rests.comment, h.alone.comment]
    refine ⟨⟨h.indents, h.pending, ?_, h.lead, ⟨h.rests.1, h.rests.2⟩,
      ⟨h.alone.1, h.alone.2⟩, h.fresh, ?_⟩, rfl, rfl⟩
    · rw [recast_append, recast_append, h.held, text, List.append_assoc]
      rfl
    · rw [onlyComments_append, h.comments]
      rfl

/-- The first token of a text at the left margin ends what was before it. -/
theorem Resumes.token (h : Resumes s₀ s t) (hpos : ∀ w ∈ s₀.indents, 0 < w)
    (hc : s₀.hasContent = false)
    {k k' : TokenKind} (hk : recast .bare k = recast .bare k') (span span' : Span) {ts : List Token}
    (q : Position)
    (clean : (t.token k' span').2.errors = [])
    (starts : ∀ u ∈ ((t.token k' span').2.tokens ++ ts).find? (!·.kind.isComment),
      u.kind ≠ .indent ∧ u.kind ≠ .symbol .pipe) (plain : k'.isComment = false) :
    (s.token k span).1.Alike (t.token k' span').1
      ∧ recast .bare (s.token k span).2.tokens
        = recast .bare (s₀.closing q) ++ recast .bare (t.token k' span').2.tokens := by
  rw [token_eq, h.alone.opening, Tokenized.errors_append, List.append_eq_nil_iff] at clean
  rw [token_eq, h.alone.opening] at starts
  have atMargin : t.lead = [] := by
    cases hlead : t.lead with
    | nil => rfl
    | cons c lead =>
      obtain ⟨span, tokens⟩ := startLine_indented (by simp [hlead]) h.fresh.1 h.fresh.2 clean.1
      rw [Tokenized.tokens_append, tokens] at starts
      exact absurd rfl (starts ⟨.indent, span⟩ (by simp [TokenKind.isComment])).1
  have alone := startLine_margin (k' = .symbol .pipe) span'.start atMargin
    (by simp [h.fresh]) (by simp [h.fresh])
  have ended : t.ended ++ dedents t.indents.length span'.start = [] := by
    simp [Layout.ended, h.fresh, dedents]
  have notPipe : k' ≠ .symbol .pipe := by
    have comments : t.held.find? (!·.kind.isComment) = none :=
      List.find?_eq_none.2 fun u hu ↦ by simpa using List.all_eq_true.1 h.comments u hu
    refine (starts ⟨k', span'⟩ ?_).2
    rw [alone, ended, Tokenized.tokens_append, List.nil_append, List.append_assoc,
      List.find?_append, comments]
    simp [Tokenized.ofTokens, plain]
  have here := startLine_margin (k = .symbol .pipe) span.start (h.lead.trans atMargin)
    (h.indents ▸ hpos) (by
      rw [decide_eq_false (mt (bare_eq_iff (by simp)).2 ?_), Bool.false_and]
      rw [hk]
      exact mt (bare_eq_iff (by simp)).1 notPipe)
  have last : recast .bare (⟨k, span⟩ : Token) = recast .bare ⟨k', span'⟩ := by
    rw [recast_token, recast_token, hk]
    rfl
  rw [token_eq, token_eq, h.rests.opening, h.alone.opening, here, alone]
  refine ⟨⟨rfl, ?_, rfl, rfl, rfl, h.lead⟩, ?_⟩
  · change depthAfter k s.depth = depthAfter k' t.depth
    rw [depthAfter_congr hk, h.rests.depth, h.alone.depth]
  · rw [Tokenized.tokens_append, Tokenized.tokens_append, ← h.rests.closing, ← h.alone.closing,
      Tokenized.ofTokens, Tokenized.ofTokens, recast_append, recast_append, recast_cons,
      recast_cons, last, h.closing hc span.start q span'.start, List.append_assoc]

end Layout

private theorem indents_runLayout {s : Layout} (ls : List LexemeAt)
    (hpos : ∀ w ∈ s.indents, 0 < w) : ∀ w ∈ (runLayout s ls).1.indents, 0 < w := by
  induction ls generalizing s with
  | nil => exact hpos
  | cons l ls ih => exact ih (Layout.indents_step hpos)

/-- A text that starts at the left margin gives the tokens that it gives alone, after those that
end what was before it. -/
theorem runLayout_resumes {s₀ s t : Layout} (h : Layout.Resumes s₀ s t)
    (hpos : ∀ w ∈ s₀.indents, 0 < w) (hc : s₀.hasContent = false) {ls ms : List LexemeAt}
    (hl : recast .bare ls = recast .bare ms) (p q r : Position)
    (clean : (runLayout t ms).2.errors = [])
    (starts : ∀ u ∈ ((runLayout t ms).2.tokens ++ (runLayout t ms).1.closing r).find?
      (!·.kind.isComment), u.kind ≠ .indent ∧ u.kind ≠ .symbol .pipe) :
    recast .bare ((runLayout s ls).2.tokens ++ (runLayout s ls).1.closing p)
      = recast .bare (s₀.closing q)
        ++ recast .bare ((runLayout t ms).2.tokens ++ (runLayout t ms).1.closing r) := by
  induction ls generalizing s t ms with
  | nil =>
    obtain rfl : ms = [] := List.map_eq_nil_iff.1 hl.symm
    exact h.closing hc p q r
  | cons l ls ih =>
    cases ms with
    | nil => contradiction
    | cons m ms =>
      obtain ⟨first, rest⟩ := List.cons.inj hl
      have kinds := bare_kind? first
      simp only [runLayout, Tokenized.tokens_append, Tokenized.errors_append, List.append_assoc,
        List.append_eq_nil_iff] at clean starts ⊢
      cases hk : l.kind? with
      | none =>
        obtain ⟨resumes, nothing, nothing'⟩ := h.step first hk
        rw [nothing, nothing']
        rw [nothing'] at starts
        exact ih resumes rest clean.2 starts
      | some k =>
        obtain ⟨k', hk', same⟩ : ∃ k', m.kind? = some k' ∧ recast .bare k = recast .bare k' := by
          cases hm : m.kind? <;> simp_all
        have plain : k'.isComment = false := by
          have := LexemeAt.isPlain_of_kind? hk'
          cases k' <;> first | contradiction | rfl
        have noFault := (List.append_eq_nil_iff.1 (Layout.step_of_kind? hk' ▸ clean.1)).2
        rw [Layout.step_of_kind? hk'] at starts
        rw [Layout.step_of_kind? hk, Layout.step_of_kind? hk']
        obtain ⟨alike, tokens⟩ := h.token hpos hc same l.span m.span q noFault starts plain
        obtain ⟨alike', tokens'⟩ := runLayout_alike alike rest
        have closing := alike'.closing p r
        simp only [Layout.faultyToken, Tokenized.tokens_append, List.nil_append, recast_append,
          tokens, tokens', closing, List.append_assoc]

/-! ## A text after another one -/

/-- A text that ends its last line, has no lexical errors and closes its brackets leaves the layout
between two lines. -/
theorem rests_finalLayout {text : List Char} (ends : endsLine text = true)
    (sound : ∀ l ∈ lexemes .start text, ∀ fault, l.lexeme ≠ .faulty fault)
    (closed : (finalLayout text).depth = 0) :
    (finalLayout text).Rests ∧ (finalLayout text).lead = [] := by
  have last := getLast?_lexemes .start ends sound
  rcases List.eq_nil_or_concat (lexemes .start text) with hnil | ⟨ls, l, hl⟩
  · rw [finalLayout, hnil]
    exact ⟨⟨rfl, rfl⟩, rfl⟩
  · rw [hl] at last
    have final : finalLayout text = (runLayout {} ls).1.lineBreak l.span := by
      rw [finalLayout, hl, List.concat_eq_append, runLayout_append]
      exact congrArg Prod.fst (Layout.step_of_lineBreak (last l (by simp)))
    rw [final] at closed ⊢
    have depth : (runLayout {} ls).1.depth = 0 := by
      simp only [Layout.lineBreak] at closed
      split at closed <;> exact closed
    cases hc : (runLayout {} ls).1.hasContent with
    | true =>
      rw [Layout.lineBreak, if_neg (by simp [depth, hc])]
      exact ⟨⟨depth, rfl⟩, rfl⟩
    | false =>
      rw [Layout.Rests.lineBreak ⟨depth, hc⟩]
      exact ⟨⟨depth, hc⟩, rfl⟩

/-- A text without lexical errors is made of sound lexemes. -/
theorem lexeme_ne_faulty {text : List Char} (h : (tokenizeChars text).errors = []) :
    ∀ l ∈ lexemes .start text, ∀ fault, l.lexeme ≠ .faulty fault := by
  intro l hl fault hf
  have := faults_runLayout (List.append_eq_nil_iff.1 h).1 l hl
  rw [LexemeAt.faults, hf] at this
  contradiction

/-- The tokens of a text that starts at the left margin after one that has ended are its own. -/
theorem tokensOf_append {text more : List Char} (ends : endsLine text = true)
    (clean : (tokenizeChars text).errors = []) (closed : (finalLayout text).depth = 0)
    (clean' : (tokenizeChars more).errors = [])
    (starts : ∀ u ∈ (tokensOf more).find? (!·.kind.isComment), u.kind ≠ .indent
      ∧ u.kind ≠ .symbol .pipe) :
    recast .bare (tokensOf (text ++ more)) = recast .bare (tokensOf text ++ tokensOf more) := by
  obtain ⟨rests, lead⟩ := rests_finalLayout ends (lexeme_ne_faulty clean) closed
  have split := lexemes_append .start more ends (lexeme_ne_faulty clean)
  have resumes : Layout.Resumes (finalLayout text) (finalLayout text) {} :=
    ⟨rfl, rfl, (List.append_nil _).symm, lead, rests, ⟨rfl, rfl⟩, ⟨rfl, rfl⟩, rfl⟩
  have after := runLayout_resumes resumes (indents_runLayout _ (by simp)) rests.hasContent
    (bare_lexemes (Position.start.after text) .start more) (Position.start.after (text ++ more))
    (Position.start.after text) (Position.start.after more)
      (List.append_eq_nil_iff.1 clean').1 starts
  have tokens : tokensOf (text ++ more) = (runLayout {} (lexemes .start text)).2.tokens
      ++ ((runLayout (finalLayout text) (lexemes (Position.start.after text) more)).2.tokens
        ++ (runLayout (finalLayout text) (lexemes (Position.start.after text) more)).1.closing
          (Position.start.after (text ++ more))) := by
    rw [tokensOf, finalLayout, split, runLayout_append, Tokenized.tokens_append, List.append_assoc]
    rfl
  calc recast .bare (tokensOf (text ++ more))
      = recast .bare (runLayout {} (lexemes .start text)).2.tokens
        ++ (recast .bare ((finalLayout text).closing (Position.start.after text))
          ++ recast .bare (tokensOf more)) := by rw [tokens, recast_append, after]; rfl
    _ = recast .bare (tokensOf text ++ tokensOf more) := by
      rw [← List.append_assoc, ← recast_append, ← recast_append]
      rfl

end ProseLang
