import ProseLang.Proofs.Grammar.Stream
import ProseLang.Token.Layout

/-!
# Streams that layout gives

The tokens of every text close each block that they open, and a line that has a token has an end
(`lined_tokenizeChars`), whatever is wrong with the text.
-/

namespace ProseLang

/-! ## Lexemes that are tokens -/

namespace LexemeAt

/-- The kind of token that a lexeme is, if it is one. -/
def kind? (l : LexemeAt) : Option TokenKind :=
  match l.lexeme with
  | .blank | .lineBreak | .comment => none
  | .number => some (.number (String.ofList l.text))
  | .word (some reserved) => some (.keyword reserved)
  | .word none => some (.identifier (String.ofList l.text))
  | .symbol mark => some (.symbol mark)
  | .quoted triple body => some (.string (.decode l.span.start triple body))
  | .discretion multiline body => some (.discretion (.ofBody multiline body))
  | .faulty _ => some .invalid

/-- What is wrong within a lexeme. -/
def faults (l : LexemeAt) : List LexError :=
  match l.lexeme with
  | .quoted triple body =>
    (StringLiteral.decode l.span.start triple body).invalidEscapes.map fun e ↦
      ⟨.invalidEscape e.sequence, e.span⟩
  | .faulty fault => [⟨fault, l.span⟩]
  | _ => []

/-- A lexeme that is a token is no layout. -/
theorem isPlain_of_kind? {l : LexemeAt} {k : TokenKind} (h : l.kind? = some k) :
    k.isPlain = true := by
  unfold kind? at h
  split at h <;> first | contradiction | (cases h; rfl)

/-- A lexeme that is no token is blank, a line break or a comment. -/
theorem lexeme_of_kind?_none {l : LexemeAt} (h : l.kind? = none) :
    l.lexeme = .blank ∨ l.lexeme = .lineBreak ∨ l.lexeme = .comment := by
  unfold kind? at h
  split at h <;> simp_all

end LexemeAt

namespace Layout

variable {s : Layout} {l : LexemeAt}

private theorem faultyToken_nil (s : Layout) (kind : TokenKind) (span : Span) :
    s.faultyToken [] kind span = s.token kind span := rfl

/-- A lexeme that is a token is laid out with its faults and its kind. -/
theorem step_of_kind? {k : TokenKind} (h : l.kind? = some k) :
    s.step l = s.faultyToken l.faults k l.span := by
  unfold LexemeAt.kind? at h
  split at h <;> first | contradiction | (cases h; simp only [step, LexemeAt.faults,
    faultyToken_nil, *])

/-- A blank leads the lines after it. -/
theorem step_of_blank (h : l.lexeme = .blank) : s.step l = ({ s with lead := l.text }, {}) := by
  rw [step, h]

/-- A line break ends the line. -/
theorem step_of_lineBreak (h : l.lexeme = .lineBreak) : s.step l = (s.lineBreak l.span, {}) := by
  rw [step, h]

/-- A comment waits for its line, or stands in it. -/
theorem step_of_comment (h : l.lexeme = .comment) :
    s.step l = s.comment (String.ofList l.text) l.span := by
  rw [step, h]

end Layout

/-! ## Lines and blocks -/

/-- Whether tokens close every block that they open, and none of a line is the last but for
comments. -/
def Lined : List Token → Prop
  | [] => True
  | t :: rest =>
    t.kind ≠ .endOfFile ∧ (t.kind = .indent → 0 < openBlocks rest)
      ∧ (t.kind.isPlain = true → onlyComments rest = false) ∧ Lined rest

private theorem lined_cons_of_layout {t : Token} {rest : List Token} (hl : t.kind.isPlain = false)
    (hend : t.kind ≠ .endOfFile) (hindent : t.kind ≠ .indent) : Lined (t :: rest) ↔ Lined rest := by
  simp [Lined, hl, hend, hindent]

/-- A stream of comments starts with a comment. -/
theorem onlyComments_cons (t : Token) (rest : List Token) :
    onlyComments (t :: rest) = (t.kind.isComment && onlyComments rest) := rfl

/-- Comments before comments are comments. -/
theorem onlyComments_append (a b : List Token) :
    onlyComments (a ++ b) = (onlyComments a && onlyComments b) := List.all_append

/-- A comment is layout that neither opens nor closes anything. -/
theorem TokenKind.flat_of_isComment {k : TokenKind} (h : k.isComment = true) :
    k.isPlain = false ∧ k ≠ .endOfFile ∧ k ≠ .indent ∧ k ≠ .dedent := by
  cases k <;> first | contradiction | simp [isPlain, isComment]

/-- Comments open no block and end no line. -/
theorem lined_comments_append {held : List Token} (h : onlyComments held = true)
    (rest : List Token) :
    (Lined (held ++ rest) ↔ Lined rest) ∧ openBlocks (held ++ rest) = openBlocks rest := by
  induction held with
  | nil => exact ⟨.rfl, rfl⟩
  | cons t held ih =>
    obtain ⟨ht, hheld⟩ := Bool.and_eq_true_iff.1 h
    obtain ⟨lined, blocks⟩ := ih hheld
    have flat := TokenKind.flat_of_isComment ht
    exact ⟨(lined_cons_of_layout flat.1 flat.2.1 flat.2.2.1).trans lined,
      (openBlocks_cons_of_flat _ flat.2.2.1 flat.2.2.2).trans blocks⟩

private theorem lined_dedents_append (n : Nat) (p : Position) (rest : List Token) :
    (Lined (Layout.dedents n p ++ rest) ↔ Lined rest)
      ∧ openBlocks (Layout.dedents n p ++ rest) = openBlocks rest + n := by
  induction n with
  | zero => exact ⟨.rfl, rfl⟩
  | succ n ih =>
    rw [Layout.dedents, List.replicate_succ, List.cons_append,
      lined_cons_of_layout rfl (by simp) (by simp), openBlocks_cons_dedent _ rfl]
    exact ⟨ih.1, congrArg (· + 1) ih.2⟩

namespace Layout

/-- The end of the line before, if it ended there. -/
def ended (s : Layout) : List Token := s.pending.toList.map fun span ↦ ⟨.newline, span⟩

private theorem lined_ended_append (s : Layout) (rest : List Token) :
    (Lined (s.ended ++ rest) ↔ Lined rest) ∧ openBlocks (s.ended ++ rest) = openBlocks rest := by
  cases hs : s.pending with
  | none => simp [ended, hs]
  | some span =>
    simp only [ended, hs, Option.toList_some, List.map_cons, List.map_nil, List.cons_append,
      List.nil_append]
    exact ⟨lined_cons_of_layout rfl (by simp) (by simp),
      openBlocks_cons_of_flat _ (by simp) (by simp)⟩

/-- The tokens that end the last line and every open block. -/
def closing (s : Layout) (p : Position) : List Token :=
  (match s.pending with
    | some span => [⟨.newline, span⟩]
    | none => if s.hasContent then [⟨.newline, .point p⟩] else [])
  ++ dedents s.indents.length p ++ s.held

private theorem finish_eq (s : Layout) (p : Position) :
    s.finish p = s.closing p ++ [⟨.endOfFile, .point p⟩] := rfl

/-- Whether tokens may come next: they close the open blocks, and a line that has begun is not
left without an end. -/
structure Continued (s : Layout) (ts : List Token) : Prop where
  lined : Lined ts
  opens : openBlocks ts = s.indents.length
  goes : s.hasContent = true ∨ s.pending.isSome = true → onlyComments ts = false

variable {s : Layout} {l : LexemeAt} {ts : List Token}

/-- A line goes one block deeper, or leaves as many blocks as there are dedents. -/
theorem startLine_cases (s : Layout) (isPipe : Bool) (p : Position) :
    (∃ width span, s.width < width
        ∧ (s.startLine isPipe p).1
          = { s with indents := width :: s.indents, pending := none, held := [] }
        ∧ (s.startLine isPipe p).2.tokens = s.ended ++ (⟨.indent, span⟩ :: s.held))
      ∨ ∃ closed kept, closed + kept.length = s.indents.length ∧ kept <:+ s.indents
        ∧ (s.startLine isPipe p).1 = { s with indents := kept, pending := none, held := [] }
        ∧ ((s.startLine isPipe p).2.tokens = s.ended ++ (dedents closed p ++ s.held)
          ∨ (s.startLine isPipe p).2.tokens = s.held ++ dedents closed p) := by
  have levels : ∀ width, (s.indents.takeWhile (width < ·)).length
      + (s.indents.dropWhile (width < ·)).length = s.indents.length := fun width ↦ by
    rw [← List.length_append, List.takeWhile_append_dropWhile]
  simp only [startLine]
  generalize (if s.leadTab?.isSome = true then s.width else s.lead.length) = width
  split
  · exact .inr ⟨_, _, levels _, List.dropWhile_suffix _, rfl, .inr rfl⟩
  · split
    · next deeper => exact .inl ⟨_, _, deeper, rfl, rfl⟩
    · exact .inr ⟨_, _, levels _, List.dropWhile_suffix _, rfl, .inl (List.append_assoc _ _ _)⟩

/-- The start of a line may come before tokens that may continue it. -/
theorem Continued.startLine {isPipe : Bool} {p : Position} (held : onlyComments s.held = true)
    (lined : Lined ts) (opens : openBlocks ts = (s.startLine isPipe p).1.indents.length)
    (goes : onlyComments ts = false) :
    s.Continued ((s.startLine isPipe p).2.tokens ++ ts) := by
  obtain ⟨linedHeld, blocksHeld⟩ := lined_comments_append held ts
  rcases s.startLine_cases isPipe p with
    ⟨width, span, -, next, out⟩ | ⟨closed, kept, levels, -, next, out⟩
  · rw [next, List.length_cons] at opens
    rw [out, List.append_assoc, List.cons_append]
    obtain ⟨linedEnded, blocksEnded⟩ := s.lined_ended_append (⟨.indent, span⟩ :: (s.held ++ ts))
    refine ⟨linedEnded.2 ⟨by simp, fun _ ↦
      by omega, by simp [TokenKind.isPlain, TokenKind.isLayout], linedHeld.2 lined⟩, ?_, fun _ ↦ ?_⟩
    · rw [blocksEnded, openBlocks_cons_indent _ rfl, blocksHeld, opens]
      rfl
    · simp [onlyComments_append, onlyComments_cons, goes]
  · rw [next] at opens
    change _ = kept.length at opens
    refine ⟨?_, ?_, fun _ ↦ by rw [onlyComments_append, goes, Bool.and_false]⟩
    all_goals
      rcases out with out | out
      all_goals
        rw [out]
        simp only [List.append_assoc, s.lined_ended_append, lined_dedents_append, linedHeld,
          blocksHeld, lined_comments_append held]
    · exact lined
    · exact lined
    · rw [opens]; omega
    · rw [opens]; omega

/-- The layout after a token. -/
theorem token_fst (s : Layout) (k : TokenKind) (span : Span) :
    ∃ depth, (s.token k span).1 = { (if s.depth = 0 && !s.hasContent
      then (s.startLine (k = .symbol .pipe) span.start).1 else s)
        with depth, hasContent := true } := by
  simp only [token]
  split <;> exact ⟨_, rfl⟩

/-- A token stands behind what starts its line, if it is the first one and in no brackets. -/
theorem token_snd (s : Layout) (k : TokenKind) (span : Span) :
    (s.token k span).2.tokens = (if s.depth = 0 && !s.hasContent
      then (s.startLine (k = .symbol .pipe) span.start).2.tokens else []) ++ [⟨k, span⟩] := by
  simp only [token]
  split <;> rfl

private theorem Continued.token {k : TokenKind} {span : Span} (h : (s.token k span).1.Continued ts)
    (hk : k.isPlain = true) (held : onlyComments s.held = true) :
    s.Continued ((s.token k span).2.tokens ++ ts) := by
  obtain ⟨depth, next⟩ := s.token_fst k span
  have goes := h.goes (.inl (by rw [next]))
  have opens := h.opens
  have flat : k ≠ .endOfFile ∧ k ≠ .indent ∧ k ≠ .dedent ∧ k.isComment = false := by
    cases k <;> simp_all [TokenKind.isPlain, TokenKind.isLayout, TokenKind.isComment]
  have lined : Lined (⟨k, span⟩ :: ts) := ⟨flat.1, fun h ↦ absurd h flat.2.1, fun _ ↦ goes, h.lined⟩
  have blocks : openBlocks (⟨k, span⟩ :: ts) = openBlocks ts :=
    openBlocks_cons_of_flat _ flat.2.1 flat.2.2.1
  have more : onlyComments (⟨k, span⟩ :: ts) = false := by
    rw [onlyComments_cons, flat.2.2.2, Bool.false_and]
  rw [token_snd, List.append_assoc]
  rw [next] at opens
  split
  · next starts =>
    rw [if_pos starts] at opens
    exact .startLine held lined (blocks.trans opens) more
  · next starts =>
    rw [if_neg starts] at opens
    exact ⟨lined, blocks.trans opens, fun _ ↦ more⟩

/-- What a lexeme gives may come before tokens that may continue it. -/
theorem Continued.step (h : (s.step l).1.Continued ts) (held : onlyComments s.held = true) :
    s.Continued ((s.step l).2.tokens ++ ts) := by
  cases hk : l.kind? with
  | some k =>
    rw [step_of_kind? hk] at h ⊢
    exact Continued.token h (LexemeAt.isPlain_of_kind? hk) held
  | none =>
    rcases LexemeAt.lexeme_of_kind?_none hk with hl | hl | hl
    · rw [step_of_blank hl] at h ⊢
      exact ⟨h.lined, h.opens, h.goes⟩
    · rw [step_of_lineBreak hl] at h ⊢
      simp only [lineBreak] at h
      split at h
      · exact ⟨h.lined, h.opens, h.goes⟩
      · exact ⟨h.lined, h.opens, fun _ ↦ h.goes (.inr rfl)⟩
    · rw [step_of_comment hl] at h ⊢
      simp only [comment] at h ⊢
      split
      · next within =>
        rw [if_pos within] at h
        refine ⟨⟨by simp, by simp, by simp [TokenKind.isPlain, TokenKind.isComment], h.lined⟩, ?_,
          h.goes⟩
        exact (openBlocks_cons_of_flat _ (by simp) (by simp)).trans h.opens
      · next within =>
        rw [if_neg within] at h
        exact ⟨h.lined, h.opens, h.goes⟩

/-- Only comments wait for the next line. -/
theorem held_step (held : onlyComments s.held = true) : onlyComments (s.step l).1.held = true := by
  cases hk : l.kind? with
  | some k =>
    rw [step_of_kind? hk]
    obtain ⟨depth, next⟩ := s.token_fst k l.span
    rw [faultyToken, next]
    split
    · rcases s.startLine_cases (k = .symbol .pipe) l.span.start with
        ⟨_, _, -, next, -⟩ | ⟨_, _, -, -, next, -⟩ <;> rw [next] <;> rfl
    · exact held
  | none =>
    rcases LexemeAt.lexeme_of_kind?_none hk with hl | hl | hl
    · rw [step_of_blank hl]
      exact held
    · rw [step_of_lineBreak hl]
      simp only [lineBreak]
      split <;> exact held
    · rw [step_of_comment hl]
      simp only [comment]
      split
      · exact held
      · rw [onlyComments_append, held]
        rfl

private theorem continued_closing (s : Layout) (p : Position) (held : onlyComments s.held = true) :
    s.Continued (s.closing p) := by
  have blocks : Lined (dedents s.indents.length p ++ s.held)
      ∧ openBlocks (dedents s.indents.length p ++ s.held) = s.indents.length := by
    have comments := lined_comments_append held []
    rw [List.append_nil] at comments
    obtain ⟨lined, opens⟩ := lined_dedents_append s.indents.length p s.held
    exact ⟨lined.2 (comments.1.2 trivial), by rw [opens, comments.2]; exact Nat.zero_add _⟩
  have line : ∀ span, s.Continued (⟨.newline, span⟩ :: (dedents s.indents.length p ++ s.held)) :=
    fun span ↦ ⟨(lined_cons_of_layout rfl (by simp) (by simp)).2 blocks.1,
      (openBlocks_cons_of_flat _ (by simp) (by simp)).trans blocks.2, fun _ ↦ rfl⟩
  rw [closing, List.append_assoc]
  cases hp : s.pending with
  | some span => exact line span
  | none =>
    cases hc : s.hasContent with
    | true => exact line _
    | false => exact ⟨blocks.1, blocks.2, by simp [hp, hc]⟩

end Layout

/-- What lexemes give may come before tokens that may continue them. -/
theorem continued_runLayout {s : Layout} {ls : List LexemeAt} {ts : List Token}
    (held : onlyComments s.held = true) (h : (runLayout s ls).1.Continued ts) :
    s.Continued ((runLayout s ls).2.tokens ++ ts) := by
  induction ls generalizing s with
  | nil => exact h
  | cons l ls ih =>
    simp only [runLayout, Tokenized.tokens_append, List.append_assoc]
    exact (ih (Layout.held_step held) h).step held

/-- What waits for its line are comments only. -/
theorem held_runLayout {s : Layout} {ls : List LexemeAt} (held : onlyComments s.held = true) :
    onlyComments (runLayout s ls).1.held = true := by
  induction ls generalizing s with
  | nil => exact held
  | cons l ls ih => exact ih (Layout.held_step held)

/-! ## What is wrong with a text -/

namespace Layout

variable {s : Layout} {l : LexemeAt}

private theorem isPlain_of_mem_held (held : onlyComments s.held = true) {t : Token}
    (ht : t ∈ s.held) : t.kind.isPlain = false :=
  (TokenKind.flat_of_isComment (List.all_eq_true.1 held t ht)).1

private theorem isPlain_of_mem_ended {t : Token} (ht : t ∈ s.ended) : t.kind.isPlain = false := by
  obtain ⟨span, -, rfl⟩ := List.mem_map.1 ht
  rfl

private theorem isPlain_of_mem_dedents {n : Nat} {p : Position} {t : Token} (ht : t ∈ dedents n p) :
    t.kind.isPlain = false := by
  rw [List.eq_of_mem_replicate ht]
  rfl

/-- Apart from layout and comments, a lexeme gives the token that it is. -/
theorem kind_of_mem_step (held : onlyComments s.held = true) {t : Token}
    (ht : t ∈ (s.step l).2.tokens) : t.kind.isPlain = false ∨ l.kind? = some t.kind := by
  cases hk : l.kind? with
  | some k =>
    rw [step_of_kind? hk] at ht
    change t ∈ (s.token k l.span).2.tokens at ht
    rw [token_snd, List.mem_append, List.mem_singleton] at ht
    rcases ht with ht | rfl
    · refine .inl ?_
      split at ht
      · rcases s.startLine_cases (k = .symbol .pipe) l.span.start with
          ⟨_, _, -, -, out⟩ | ⟨_, _, -, -, -, out | out⟩
        all_goals
          rw [out] at ht
          simp only [List.mem_append, List.mem_cons] at ht
        · rcases ht with ht | rfl | ht
          · exact isPlain_of_mem_ended ht
          · rfl
          · exact isPlain_of_mem_held held ht
        · rcases ht with ht | ht | ht
          · exact isPlain_of_mem_ended ht
          · exact isPlain_of_mem_dedents ht
          · exact isPlain_of_mem_held held ht
        · rcases ht with ht | ht
          · exact isPlain_of_mem_held held ht
          · exact isPlain_of_mem_dedents ht
      · contradiction
    · exact .inr rfl
  | none =>
    refine .inl ?_
    rcases LexemeAt.lexeme_of_kind?_none hk with hl | hl | hl
    · rw [step_of_blank hl] at ht
      contradiction
    · rw [step_of_lineBreak hl] at ht
      contradiction
    · rw [step_of_comment hl] at ht
      simp only [comment] at ht
      split at ht
      · rw [List.mem_singleton.1 ht]
        rfl
      · contradiction

/-- What is wrong within a lexeme is reported. -/
theorem faults_step (h : (s.step l).2.errors = []) : l.faults = [] := by
  cases hk : l.kind? with
  | some k =>
    rw [step_of_kind? hk] at h
    exact (List.append_eq_nil_iff.1 h).1
  | none =>
    rcases LexemeAt.lexeme_of_kind?_none hk with hl | hl | hl <;> rw [LexemeAt.faults, hl]

end Layout

/-- A text without lexical errors has no faulty lexeme. -/
theorem faults_runLayout {s : Layout} {ls : List LexemeAt} (h : (runLayout s ls).2.errors = []) :
    ∀ l ∈ ls, l.faults = [] := by
  induction ls generalizing s with
  | nil => simp
  | cons l ls ih =>
    obtain ⟨first, rest⟩ := List.append_eq_nil_iff.1 h
    exact List.forall_mem_cons.2 ⟨Layout.faults_step first, ih rest⟩

private theorem kind_of_mem_runLayout {s : Layout} {ls : List LexemeAt}
    (held : onlyComments s.held = true) {t : Token} (ht : t ∈ (runLayout s ls).2.tokens) :
    t.kind.isPlain = false ∨ ∃ l ∈ ls, l.kind? = some t.kind := by
  induction ls generalizing s with
  | nil => contradiction
  | cons l ls ih =>
    rcases List.mem_append.1 ht with ht | ht
    · exact (Layout.kind_of_mem_step held ht).imp_right fun h ↦ ⟨l, List.mem_cons_self, h⟩
    · exact (ih (Layout.held_step held) ht).imp_right fun ⟨m, hm, h⟩ ↦
        ⟨m, List.mem_cons_of_mem _ hm, h⟩

/-! ## The tokens of a text -/

/-- The layout where a text ends. -/
def finalLayout (text : List Char) : Layout := (runLayout {} (lexemes .start text)).1

/-- The tokens of a text up to the end of the file. -/
def tokensOf (text : List Char) : List Token :=
  (runLayout {} (lexemes .start text)).2.tokens
    ++ (finalLayout text).closing (Position.start.after text)

/-- The tokens of a text end with the end of the file. -/
theorem tokens_tokenizeChars (text : List Char) :
    (tokenizeChars text).tokens
      = tokensOf text ++ [⟨.endOfFile, .point (Position.start.after text)⟩] := by
  rw [tokensOf, List.append_assoc, ← Layout.finish_eq]
  rfl

/-- The tokens of a text close every block that they open, and none of a line is the last. -/
theorem lined_tokensOf (text : List Char) :
    Lined (tokensOf text) ∧ openBlocks (tokensOf text) = 0 := by
  have held : onlyComments (finalLayout text).held = true := held_runLayout rfl
  have : ({} : Layout).Continued (tokensOf text) :=
    continued_runLayout rfl (Layout.continued_closing _ (Position.start.after text) held)
  exact ⟨this.lined, this.opens⟩

private theorem kind_of_mem_closing {s : Layout} {p : Position} (held : onlyComments s.held = true)
    {t : Token} (ht : t ∈ s.closing p) : t.kind.isPlain = false := by
  simp only [Layout.closing, List.mem_append] at ht
  rcases ht with (ht | ht) | ht
  · split at ht
    · rw [List.mem_singleton.1 ht]
      rfl
    · split at ht
      · rw [List.mem_singleton.1 ht]
        rfl
      · contradiction
  · exact Layout.isPlain_of_mem_dedents ht
  · exact Layout.isPlain_of_mem_held held ht

/-- A text without lexical errors has no token that is none. -/
theorem kind_ne_invalid {text : List Char} (h : (tokenizeChars text).errors = []) {t : Token}
    (ht : t ∈ tokensOf text) : t.kind ≠ .invalid := by
  intro hk
  have clean : (runLayout {} (lexemes .start text)).2.errors = [] := (List.append_eq_nil_iff.1 h).1
  have plain : ¬ t.kind.isPlain = false := by simp [hk, TokenKind.isPlain, TokenKind.isLayout,
    TokenKind.isComment]
  rcases List.mem_append.1 ht with ht | ht
  · obtain ⟨l, hl, hkind⟩ := (kind_of_mem_runLayout rfl ht).resolve_left plain
    have faults := faults_runLayout clean l hl
    rw [hk] at hkind
    unfold LexemeAt.kind? at hkind
    split at hkind <;> first | contradiction | simp_all [LexemeAt.faults]
  · exact plain (kind_of_mem_closing (held_runLayout rfl) ht)

/-! ## The first token -/

private theorem find?_of_onlyComments {ts : List Token} (h : onlyComments ts = true) :
    ts.find? (!·.kind.isComment) = none :=
  List.find?_eq_none.2 fun t ht ↦ by simpa using List.all_eq_true.1 h t ht

/-- Comments before tokens change nothing about the first that is no comment. -/
theorem find?_comments_append {held : List Token} (h : onlyComments held = true) (ts : List Token) :
    (held ++ ts).find? (!·.kind.isComment) = ts.find? (!·.kind.isComment) := by
  rw [List.find?_append, find?_of_onlyComments h, Option.none_or]

/-- Whether tokens start with the end of a line, comments aside. -/
def startsWithNewline (ts : List Token) : Bool :=
  (ts.find? (!·.kind.isComment)).any (·.kind = .newline)

private theorem startsWithNewline_comments_append {held : List Token} (h : onlyComments held = true)
    (ts : List Token) : startsWithNewline (held ++ ts) = startsWithNewline ts := by
  rw [startsWithNewline, find?_comments_append h, startsWithNewline]

private theorem startsWithNewline_cons {t : Token} (rest : List Token) (hk : t.kind ≠ .newline)
    (hc : t.kind.isComment = false) : startsWithNewline (t :: rest) = false := by
  simp [startsWithNewline, hc, hk]

private theorem startsWithNewline_dedents_append (n : Nat) (p : Position) {ts : List Token}
    (h : startsWithNewline ts = false) : startsWithNewline (Layout.dedents n p ++ ts) = false := by
  cases n with
  | zero => exact h
  | succ n => exact startsWithNewline_cons _ (by simp) rfl

/-- Before the first token of a line no line ends. -/
theorem startsWithNewline_runLayout {s : Layout} {ls : List LexemeAt} {p : Position}
    (held : onlyComments s.held = true) (hpending : s.pending = none) (hc : s.hasContent = false) :
    startsWithNewline ((runLayout s ls).2.tokens ++ (runLayout s ls).1.closing p) = false := by
  induction ls generalizing s with
  | nil =>
    have last : startsWithNewline s.held = false := by
      rw [startsWithNewline, find?_of_onlyComments held]
      rfl
    simp only [runLayout, List.nil_append, Layout.closing, hpending, hc, List.append_assoc]
    exact startsWithNewline_dedents_append _ _ last
  | cons l ls ih =>
    simp only [runLayout, Tokenized.tokens_append, List.append_assoc]
    cases hk : l.kind? with
    | some k =>
      rw [Layout.step_of_kind? hk]
      change startsWithNewline ((s.token k l.span).2.tokens ++ _) = false
      have token : ∀ ts, startsWithNewline (⟨k, l.span⟩ :: ts) = false := fun ts ↦ by
        have := LexemeAt.isPlain_of_kind? hk
        refine startsWithNewline_cons ts ?_ ?_ <;> cases k <;> simp_all [TokenKind.isPlain,
          TokenKind.isLayout, TokenKind.isComment]
      have ended : s.ended = [] := by rw [Layout.ended, hpending]; rfl
      rw [Layout.token_snd, List.append_assoc]
      split
      · rcases s.startLine_cases (k = .symbol .pipe) l.span.start with
          ⟨_, span, -, -, out⟩ | ⟨_, _, -, -, -, out | out⟩
        · rw [out, ended]
          exact startsWithNewline_cons _ (by simp) rfl
        · rw [out, ended, List.nil_append, List.append_assoc]
          apply startsWithNewline_dedents_append
          rw [startsWithNewline_comments_append held]
          exact token _
        · rw [out, List.append_assoc, startsWithNewline_comments_append held]
          exact startsWithNewline_dedents_append _ _ (token _)
      · exact token _
    | none =>
      have heldNext := Layout.held_step (l := l) held
      rcases LexemeAt.lexeme_of_kind?_none hk with hl | hl | hl
      · rw [Layout.step_of_blank hl] at heldNext ⊢
        exact ih heldNext hpending hc
      · rw [Layout.step_of_lineBreak hl] at heldNext ⊢
        have next : s.lineBreak l.span = { s with lineStart := l.span.stop, lead := [] } := by
          simp [Layout.lineBreak, hc]
        rw [next] at heldNext ⊢
        exact ih heldNext hpending hc
      · rw [Layout.step_of_comment hl] at heldNext ⊢
        simp only [Layout.comment] at heldNext ⊢
        split
        · rw [startsWithNewline_comments_append rfl]
          exact ih held hpending hc
        · next within =>
          rw [if_neg within] at heldNext
          exact ih heldNext hpending hc

end ProseLang
