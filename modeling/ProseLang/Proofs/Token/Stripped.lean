import ProseLang.Proofs.Token.Stripping

/-!
# The code of texts without comments

A text without lexical errors consists of the same tokens where its comments are left out
(`tokenize_stripSource`). The layout passes over the two texts keep step: comments that wait do not
matter to code (`Layout.step_unheld`), nor do the blanks read last once a line has begun
(`Layout.step_lead`), so what goes is nothing that the layout looks at (`Layout.Strips`).
-/

namespace ProseLang

/-- Output without its comments. -/
def Tokenized.code (out : Tokenized) : Tokenized :=
  { out with tokens := out.tokens.filter (!·.kind.isComment) }

/-- The code of two stretches is that of the first and then that of the second. -/
@[simp] theorem Tokenized.code_append (a b : Tokenized) : (a ++ b).code = a.code ++ b.code := by
  change Tokenized.mk _ _ = Tokenized.mk _ _
  rw [Tokenized.tokens_append, List.filter_append]
  rfl

private theorem filter_comments {held : List Token} (h : onlyComments held = true) :
    held.filter (!·.kind.isComment) = [] :=
  List.filter_eq_nil_iff.2 fun t ht ↦ by simp [List.all_eq_true.1 h t ht]

private theorem filter_dedents (n : Nat) (p : Position) :
    (Layout.dedents n p).filter (!·.kind.isComment) = Layout.dedents n p :=
  List.filter_eq_self.2 fun t ht ↦ by
    rw [List.eq_of_mem_replicate ht]
    rfl

namespace Layout

variable {s t : Layout} {l : LexemeAt} {ls : List LexemeAt} {st : StripPoint}

/-- A layout without the comments that wait. -/
def unheld (s : Layout) : Layout := { s with held := [] }

private theorem filter_ended (s : Layout) : s.ended.filter (!·.kind.isComment) = s.ended :=
  List.filter_eq_self.2 fun t ht ↦ by
    obtain ⟨span, -, rfl⟩ := List.mem_map.1 ht
    rfl

private theorem startLine_unheld (held : onlyComments s.held = true) (isPipe : Bool)
    (p : Position) :
    s.unheld.startLine isPipe p = ((s.startLine isPipe p).1.unheld,
      (s.startLine isPipe p).2.code) := by
  have ended := s.filter_ended
  have tab : s.unheld.leadTab? = s.leadTab? := rfl
  have width : s.unheld.width = s.width := rfl
  have lead : s.unheld.lead = s.lead := rfl
  have pending : s.unheld.pending = s.pending := rfl
  simp only [Layout.ended] at ended
  simp only [startLine, tab, width, lead, pending]
  generalize (if s.leadTab?.isSome = true then s.width else s.lead.length) = w
  split
  · simp only [Tokenized.code, List.filter_append, filter_comments held, filter_dedents]
    rfl
  · split
    · simp only [Tokenized.code, List.filter_append, List.filter_cons, filter_comments held, ended]
      rfl
    · simp only [Tokenized.code, List.filter_append, filter_comments held, ended, filter_dedents]
      rfl

private theorem token_unheld (held : onlyComments s.held = true) {k : TokenKind}
    (hk : k.isComment = false) (span : Span) :
    s.unheld.token k span = ((s.token k span).1.unheld, (s.token k span).2.code) := by
  have opens : s.unheld.opening k span.start
      = ((s.opening k span.start).1.unheld, (s.opening k span.start).2.code) := by
    unfold opening
    change (if s.depth = 0 && !s.hasContent then _ else _) = _
    split
    · exact startLine_unheld held ..
    · rfl
  have last : (Tokenized.ofTokens [⟨k, span⟩]).code = .ofTokens [⟨k, span⟩] := by
    simp [Tokenized.code, Tokenized.ofTokens, hk]
  rw [token_eq, token_eq, opens]
  simp only [Tokenized.code_append, last]
  rfl

/-- Comments that wait do not matter to code. -/
theorem step_unheld (held : onlyComments s.held = true) (code : l.lexeme ≠ .comment) :
    s.unheld.step l = ((s.step l).1.unheld, (s.step l).2.code) := by
  cases hk : l.kind? with
  | some k =>
    have plain : k.isComment = false := by
      have := LexemeAt.isPlain_of_kind? hk
      cases k <;> first | rfl | cases this
    rw [step_of_kind? hk, step_of_kind? hk]
    simp only [faultyToken, token_unheld held plain, Tokenized.code_append]
    rfl
  | none =>
    rcases LexemeAt.lexeme_of_kind?_none hk with hl | hl | hl
    · rw [step_of_blank hl, step_of_blank hl]
      rfl
    · rw [step_of_lineBreak hl, step_of_lineBreak hl]
      have depth : s.unheld.depth = s.depth := rfl
      have content : s.unheld.hasContent = s.hasContent := rfl
      simp only [lineBreak, depth, content]
      split <;> rfl
    · exact absurd hl code

/-- A comment gives no code. -/
theorem step_comment (comment : l.lexeme = .comment) :
    (∃ held, (s.step l).1 = { s with held }) ∧ (s.step l).2.code = {} := by
  rw [step_of_comment comment, Layout.comment]
  split <;> exact ⟨⟨_, rfl⟩, rfl⟩

/-- Within a line the blanks read last do not matter. -/
theorem step_lead (content : s.hasContent = true) (lead : List Char) :
    ∃ lead', { s with lead }.step l = ({ (s.step l).1 with lead := lead' }, (s.step l).2) := by
  cases hk : l.kind? with
  | some k =>
    have opens : s.opening k l.span.start = (s, {}) := by simp [opening, content]
    have opens' : { s with lead }.opening k l.span.start = ({ s with lead }, {}) := by
      simp [opening, content]
    refine ⟨lead, ?_⟩
    rw [step_of_kind? hk, step_of_kind? hk]
    simp only [faultyToken, token_eq, opens, opens']
  | none =>
    rcases LexemeAt.lexeme_of_kind?_none hk with hl | hl | hl
    · rw [step_of_blank hl, step_of_blank hl]
      exact ⟨l.text, rfl⟩
    · rw [step_of_lineBreak hl, step_of_lineBreak hl]
      refine ⟨[], ?_⟩
      simp only [lineBreak]
      split <;> rfl
    · rw [step_of_comment hl, step_of_comment hl]
      refine ⟨lead, ?_⟩
      simp only [Layout.comment]
      split <;> rfl

/-- What two layouts know of the line at a point, of which the second does not see what goes: before
what starts a line they know the same blanks. -/
def LineAgrees (ls : List LexemeAt) (s t : Layout) : StripPoint → Prop
  | .lineStart => (0 < s.depth || !s.hasContent) = true
    ∧ (t.lead = [] ∨ ∀ l ∈ ls.head?, l.lexeme ≠ .comment ∧ l.lexeme ≠ .blank)
    ∧ (s.lead = t.lead ∨ startsWithComment ls = true)
  | .inLine => s.hasContent = true
  | .ownLine => (0 < s.depth || !s.hasContent) = true ∧ t.lead = []

/-- Whether a layout that reads some lexemes agrees with one that reads those that stay. -/
structure Strips (st : StripPoint) (ls : List LexemeAt) (s t : Layout) : Prop where
  indents : s.indents = t.indents
  depth : s.depth = t.depth
  hasContent : s.hasContent = t.hasContent
  pending : s.pending.isSome = t.pending.isSome
  held : onlyComments s.held = true
  noneHeld : t.held = []
  line : LineAgrees ls s t st

/-- Blanks and comments aside the layouts differ in places only. -/
theorem Strips.alike (h : s.Strips st ls t) : { s.unheld with lead := t.lead }.Alike t :=
  ⟨h.indents, h.depth, h.hasContent, h.pending, by rw [h.noneHeld]; rfl, rfl⟩

/-- What goes gives no code. -/
theorem Strips.step_gone (h : s.Strips st (l :: ls) t) (admits : st.Admits (l :: ls))
    (gone : ¬st.keeps l.lexeme ls = true) :
    (s.step l).1.Strips (st.after l.lexeme) ls t ∧ (s.step l).2.code = {} := by
  by_cases own : st = .ownLine
  · subst own
    obtain ⟨silent, lead⟩ := h.line
    rw [step_of_lineBreak (admits rfl l rfl), lineBreak, if_pos silent]
    exact ⟨{ h with line := ⟨silent, .inl lead, .inl lead.symm⟩ }, rfl⟩
  by_cases comment : l.lexeme = .comment
  · obtain ⟨⟨held, next⟩, out⟩ := step_comment (s := s) comment
    have waiting := held_step (l := l) h.held
    rw [next] at waiting
    rw [next, comment]
    refine ⟨{ h with held := waiting, line := ?_ }, out⟩
    cases st with
    | ownLine => exact absurd rfl own
    | inLine => exact h.line
    | lineStart =>
      obtain ⟨silent, first, -⟩ := h.line
      exact ⟨silent, first.resolve_right fun code ↦ (code l rfl).1 comment⟩
  · have blank : l.lexeme = .blank := by
      by_contra visible
      exact gone (StripPoint.keeps_of_code own comment visible ls)
    rw [blank] at gone
    rw [step_of_blank blank, blank]
    cases st with
    | ownLine => exact absurd rfl own
    | inLine => exact ⟨{ h with line := h.line }, rfl⟩
    | lineStart =>
      obtain ⟨silent, first, -⟩ := h.line
      have next : startsWithComment ls = true := by simpa [StripPoint.keeps] using gone
      have line := first.resolve_right fun code ↦ (code l rfl).2 blank
      exact ⟨{ h with line := ⟨silent, .inl line, .inr next⟩ },
        rfl⟩

/-- What a point knows of the line after a lexeme that stays. -/
theorem LineAgrees.step (h : LineAgrees (l :: ls) s t st) (lexed : Lexed (l :: ls))
    (stays : st.keeps l.lexeme ls = true) :
    LineAgrees ls (s.step l).1 (t.step l).1 (st.after l.lexeme) := by
  have token {x : Layout} {k : TokenKind} (hk : l.kind? = some k) :
    (x.step l).1.hasContent = true := by
    obtain ⟨depth, next⟩ := x.token_fst k l.span
    rw [step_of_kind? hk, faultyToken, next]
  cases hk : l.kind? with
  | some k =>
    have begun : st.after l.lexeme = .inLine := by
      have breaks : l.lexeme ≠ .lineBreak := fun hl ↦ by simp [LexemeAt.kind?, hl] at hk
      have visible : l.lexeme ≠ .blank := fun hl ↦ by simp [LexemeAt.kind?, hl] at hk
      generalize l.lexeme = x at stays breaks visible
      cases st <;> cases x <;> first
        | rfl
        | exact absurd rfl breaks
        | exact absurd rfl visible
        | cases stays
    rw [begun]
    exact token hk
  | none =>
    rcases LexemeAt.lexeme_of_kind?_none hk with hl | hl | hl <;> rw [hl] at stays ⊢
    · have code (m : LexemeAt) (hm : m ∈ ls.head?) : m.lexeme ≠ .comment ∧ m.lexeme ≠ .blank := by
        refine ⟨fun comment ↦ ?_, ((List.isChain_cons.1 lexed.chain).1 m hm).2 hl⟩
        have : startsWithComment ls = true :=
          by simp [startsWithComment, Option.mem_def.1 hm, comment]
        cases st <;> simp [StripPoint.keeps, this] at stays
      rw [step_of_blank hl, step_of_blank hl]
      cases st with
      | ownLine => cases stays
      | inLine => exact h
      | lineStart => exact ⟨h.1, .inr code, .inl rfl⟩
    · have start : st.after .lineBreak = .lineStart := by cases st <;> rfl
      have lineBreak (x : Layout) : (x.lineBreak l.span).lead = []
          ∧ (0 < (x.lineBreak l.span).depth || !(x.lineBreak l.span).hasContent) = true := by
        simp only [Layout.lineBreak]
        split
        · next silent => exact ⟨rfl, silent⟩
        · exact ⟨rfl, by simp⟩
      rw [step_of_lineBreak hl, step_of_lineBreak hl, start]
      exact ⟨(lineBreak s).2, .inl (lineBreak t).1,
        .inl ((lineBreak s).1.trans (lineBreak t).1.symm)⟩
    · cases st <;> cases stays

/-- What stays gives the same code. -/
theorem Strips.step_kept (h : s.Strips st (l :: ls) t) (lexed : Lexed (l :: ls))
    (stays : st.keeps l.lexeme ls = true) :
    (s.step l).1.Strips (st.after l.lexeme) ls (t.step l).1
      ∧ recast .bare (s.step l).2.code.tokens = recast .bare (t.step l).2.tokens
      ∧ (s.step l).2.errors.map LexError.fault = (t.step l).2.errors.map LexError.fault := by
  have comment : l.lexeme ≠ .comment := by
    intro comment
    rw [comment] at stays
    cases st <;> cases stays
  -- At the start of a line both know the same blanks, and within a line the blanks do not matter.
  obtain ⟨lead, next⟩ : ∃ lead, { s.unheld with lead := t.lead }.step l
      = ({ (s.step l).1.unheld with lead }, (s.step l).2.code) := by
    have whole := step_unheld h.held comment
    cases st with
    | ownLine => cases stays
    | lineStart =>
      have lead : s.lead = t.lead :=
        h.line.2.2.resolve_right fun first ↦ comment (by simpa [startsWithComment] using first)
      rw [← lead]
      exact ⟨(s.step l).1.lead, whole⟩
    | inLine =>
      obtain ⟨lead, next⟩ := step_lead (s := s.unheld) (l := l) h.line t.lead
      rw [whole] at next
      exact ⟨lead, next⟩
  obtain ⟨alike, tokens⟩ := h.alike.step (m := l) rfl
  have faults := h.alike.step_faults (m := l) rfl
  rw [next] at alike tokens faults
  exact ⟨⟨alike.indents, alike.depth, alike.hasContent, alike.pending, held_step h.held,
    List.map_eq_nil_iff.1 alike.held.symm, h.line.step lexed stays⟩, tokens, faults⟩

/-- The end of a text gives the same code. -/
theorem Strips.closing (h : s.Strips st ls t) (p q : Position) :
    recast .bare ((s.closing p).filter (!·.kind.isComment)) = recast .bare (t.closing q) := by
  have code : (s.closing p).filter (!·.kind.isComment) = s.unheld.closing p := by
    simp only [Layout.closing, List.filter_append, filter_comments h.held, filter_dedents]
    congr 2
    have pending : s.unheld.pending = s.pending := rfl
    have content : s.unheld.hasContent = s.hasContent := rfl
    rw [pending, content]
    cases s.pending with
    | some span => rfl
    | none => dsimp only; split <;> rfl
  rw [code]
  exact h.alike.closing p q

end Layout

/-- Lexemes give the same code as those of them that stay. -/
theorem runLayout_kept {st : StripPoint} {s t : Layout} {ls : List LexemeAt} (h : s.Strips st ls t)
    (lexed : Lexed ls) (admits : st.Admits ls) :
    (∃ st', (runLayout s ls).1.Strips st' [] (runLayout t (keptLexemes st ls)).1)
      ∧ recast .bare (runLayout s ls).2.code.tokens = recast .bare
      (runLayout t (keptLexemes st ls)).2.tokens
      ∧ (runLayout s ls).2.errors.map LexError.fault
        = (runLayout t (keptLexemes st ls)).2.errors.map LexError.fault := by
  induction ls generalizing st s t with
  | nil => exact ⟨⟨st, h⟩, rfl, rfl⟩
  | cons l ls ih =>
    rw [keptLexemes]
    split
    · next stays =>
      obtain ⟨next, tokens, faults⟩ := h.step_kept lexed stays
      obtain ⟨final, tokens', faults'⟩ := ih next lexed.tail (lexed.admits st)
      refine ⟨final, ?_, ?_⟩
      · simp only [runLayout, Tokenized.code_append, Tokenized.tokens_append, recast_append, tokens,
          tokens']
      · simp only [runLayout, Tokenized.errors_append, List.map_append, faults, faults']
    · next gone =>
      obtain ⟨next, out⟩ := h.step_gone admits gone
      obtain ⟨final, tokens', faults'⟩ := ih next lexed.tail (lexed.admits st)
      have silent : (s.step l).2.errors = [] := congrArg Tokenized.errors out
      refine ⟨final, ?_, ?_⟩
      · simp only [runLayout, Tokenized.code_append, out]
        exact tokens'
      · simp only [runLayout, Tokenized.errors_append, silent]
        exact faults'

/-! ## Whole texts -/

/-- Whether a text has no lexical errors depends on its lexemes and its layout. -/
theorem errors_tokenizeChars (text : List Char) :
    (tokenizeChars text).errors = (runLayout {} (lexemes .start text)).2.errors :=
  List.append_nil _

/-- The code of a text without lexical errors is that of the text without its comments. -/
theorem bare_tokenizeChars_kept {text : List Char} (clean : (tokenizeChars text).errors = []) :
    let kept := textOf (keptLexemes .lineStart (lexemes .start text))
    (tokenizeChars kept).errors = []
      ∧ recast .bare (tokenizeChars kept).tokens
        = recast .bare (tokenizeChars text).code.tokens := by
  intro kept
  have lexed := lexed_lexemes (lexeme_ne_faulty clean)
  have start : Layout.Strips .lineStart (lexemes .start text) {} {} :=
    ⟨rfl, rfl, rfl, rfl, rfl, rfl, rfl, .inl rfl, .inl rfl⟩
  obtain ⟨⟨st, final⟩, tokens, faults⟩ := runLayout_kept start lexed nofun
  have again : recast .bare (lexemes .start kept)
      = recast .bare (keptLexemes .lineStart (lexemes .start text)) :=
    bare_lexemes_kept lexed
  have alike : ({} : Layout).Alike {} := ⟨rfl, rfl, rfl, rfl, rfl, rfl⟩
  obtain ⟨final', tokens'⟩ := runLayout_alike alike again
  have faults' := runLayout_faults alike again
  constructor
  · rw [errors_tokenizeChars] at clean ⊢
    rw [clean] at faults
    exact List.map_eq_nil_iff.1 (faults'.trans faults.symm)
  · have closing := (final.closing (Position.start.after text) (Position.start.after kept)).trans
      (final'.closing (Position.start.after kept) (Position.start.after kept)).symm
    have code : (tokenizeChars text).code.tokens
      = (runLayout {} (lexemes .start text)).2.code.tokens
        ++ ((finalLayout text).closing (Position.start.after text)).filter (!·.kind.isComment)
        ++ [⟨.endOfFile, .point (Position.start.after text)⟩] := by
      change (tokenizeChars text).tokens.filter _ = _
      rw [tokens_tokenizeChars, tokensOf, List.filter_append, List.filter_append]
      rfl
    rw [code, tokens_tokenizeChars, tokensOf]
    simp only [recast_append, tokens, tokens', finalLayout, closing]
    rfl

/-- What is left of a text without lexical errors. -/
theorem text_stripSource {source : String} (clean : (tokenize source).errors = []) :
    (stripSource source).1
      = String.ofList (textOf (keptLexemes .lineStart (lexemes .start source.toList))) := by
  have lexed := lexed_lexemes (lexeme_ne_faulty clean)
  have kept := @stripLexemes_kept .lineStart [] [] _ lexed nofun rfl nofun nofun
  have all : stripLexemes [] false (lexemes .start source.toList)
      = (textOf (keptLexemes .lineStart (lexemes .start source.toList))).reverse := by
    simpa using kept
  rw [stripSource, all, List.reverse_reverse]

/-- The comments left out of a text are those of its tokens, in order. -/
theorem comments_stripSource (source : String) :
    (stripSource source).2 = (tokenize source).tokens.filterMap Token.comment? := by
  have shown (ts : List Token) :
      ts.filterMap Token.comment? = (visible ts).filterMap Token.comment? := by
    rw [visible, List.filterMap_filter]
    refine List.filterMap_congr fun t _ ↦ ?_
    obtain ⟨kind, span⟩ := t
    cases kind <;> rfl
  rw [shown, tokenize, visible_tokenizeChars, List.filterMap_filterMap]
  refine List.filterMap_congr fun l _ ↦ ?_
  obtain ⟨lexeme, text, span⟩ := l
  cases lexeme with
  | word reserved => cases reserved <;> rfl
  | _ => rfl

/-- A text without comments stays as it is. -/
theorem stripSource_of_code {source : String}
    (code : ∀ l ∈ lexemes .start source.toList, l.lexeme ≠ .comment) :
    stripSource source = (source, []) := by
  have text (kept : List Char) {ls : List LexemeAt} (code : ∀ l ∈ ls, l.lexeme ≠ .comment) :
      stripLexemes kept false ls = (textOf ls).reverse ++ kept := by
    induction ls generalizing kept with
    | nil => rfl
    | cons l ls ih =>
      obtain ⟨first, rest⟩ := List.forall_mem_cons.1 code
      rw [stripLexemes_of_code first, ih _ rest]
      simp [textOf]
  have none : lexemeComments (lexemes .start source.toList) = [] :=
    List.filterMap_eq_nil_iff.2 fun l hl ↦ if_neg (code l hl)
  rw [stripSource, text [] code, none, textOf, text_lexemes]
  simp

/-- A text without lexical errors keeps its tokens where its comments are left out: what remains has
no lexical errors, its tokens are those of the text that are no comments, and the comments come out
in order. Nothing more is left out of what remains. -/
theorem tokenize_stripSource (source : String) (clean : (tokenize source).errors = []) :
    (tokenize (stripSource source).1).errors = []
      ∧ unplaced (tokenize (stripSource source).1).tokens
        = unplaced ((tokenize source).tokens.filter (!·.kind.isComment))
      ∧ (stripSource source).2 = (tokenize source).tokens.filterMap Token.comment?
      ∧ stripSource (stripSource source).1 = ((stripSource source).1, []) := by
  have lexed := lexed_lexemes (lexeme_ne_faulty clean)
  obtain ⟨cleanKept, tokens⟩ := bare_tokenizeChars_kept clean
  have again := @bare_lexemes_kept .lineStart .start .start _ lexed
  rw [comments_stripSource, text_stripSource clean, tokenize, String.toList_ofList]
  refine ⟨cleanKept, tokens, rfl, stripSource_of_code fun l hl ↦ ?_⟩
  rw [String.toList_ofList] at hl
  -- What the text falls apart into stays, and no comment stays.
  obtain ⟨m, hm, same⟩ : ∃ m ∈ keptLexemes .lineStart (lexemes .start source.toList),
      recast .bare m = recast .bare l := by
    have among : recast .bare l ∈ recast .bare (lexemes .start (textOf _)) := List.mem_map_of_mem hl
    rw [again] at among
    exact List.mem_map.1 among
  rw [← (lexeme_of_bare same).1]
  exact lexeme_ne_comment_of_mem_kept m hm

/-- Comments within brackets, behind a string of two lines, before a line that goes on with the one
before, and at the end of a text without a last line break. -/
theorem tokenize_stripSource_continued :
    let source := "let x = [ # open\n  1,\n  # own\n  2 \t# tail\n]\nsession \"\"\"a\n# text\"\"\" # said\n  # held\n| map:\r\n  session **why # not**# last"
    (tokenize source).errors = []
      ∧ (stripSource source).1
        = "let x = [\n  1,\n  2\n]\nsession \"\"\"a\n# text\"\"\"\n| map:\r\n  session **why # not**"
      ∧ unplaced (tokenize (stripSource source).1).tokens
        = unplaced ((tokenize source).tokens.filter (!·.kind.isComment))
      ∧ (stripSource source).2.map Comment.text
        = ["# open", "# own", "# tail", "# said", "# held", "# last"] := by
  intro source
  have clean : (tokenize source).errors = [] := by decide +kernel
  exact ⟨clean, by decide +kernel, (tokenize_stripSource source clean).2.1, by decide +kernel⟩

end ProseLang
