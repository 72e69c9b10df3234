import ProseLang.Proofs.Token.Layout
import ProseLang.Text.Slice

/-!
# Tokens and the text between them

The tokens of a text, layout aside, stand in it one after the other; each is written as the stretch
that it spans, and between two of them there are only blanks and line breaks
(`tokenize_partition`). The layout pass holds comments back, but it never lets a token overtake one:
no comment waits while a line has a token or a bracket is open (`Layout.Flushed`).
-/

namespace ProseLang

/-- The text that a token is written as. Layout has none, and what is no token may be any text. -/
def TokenKind.text? : TokenKind → Option String
  | keyword word => some word.text
  | symbol mark => some mark.text
  | number digits => some digits
  | string literal => some literal.raw
  | discretion literal => some literal.raw
  | identifier name => some name
  | comment text => some text
  | newline | indent | dedent | endOfFile | invalid => none

/-- Whether a text consists of blanks and line breaks. -/
def isGap : List Char → Bool
  | [] => true
  | '\r' :: '\n' :: text => isGap text
  | c :: text => (isBlank c || c = '\n') && isGap text

/-- Whether a fault is a stretch of text that is no token. -/
def LexFault.isNoToken : LexFault → Bool
  | unexpectedCharacter _ | unterminatedString | unterminatedDiscretion _ => true
  | invalidEscape _ | tabIndentation | inconsistentDedent => false

/-- The tokens that stand for text. -/
def visible (ts : List Token) : List Token := ts.filter (!·.kind.isLayout)

/-- The stretches between two byte offsets that tokens leave: the one before each token, and the one
after the last. -/
def stretches (start : Nat) (ts : List Token) (stop : Nat) : List (Nat × Nat) :=
  match ts with
  | [] => [(start, stop)]
  | t :: ts => (start, t.span.start.offset) :: stretches t.span.stop.offset ts stop

/-- Whether tokens make up a text, with gaps around them. -/
structure Partition (text : List Char) (ts : List Token) : Prop where
  nonempty : ∀ t ∈ ts, t.span.start.offset < t.span.stop.offset
  ordered : ts.Pairwise fun a b ↦ a.span.stop.offset ≤ b.span.start.offset
  /-- A token spans whole characters, and it is written as those. -/
  written : ∀ t ∈ ts, ∃ chars,
    sliceBytes? t.span.start.offset t.span.stop.offset text = some chars
      ∧ ∀ s ∈ t.kind.text?, s.toList = chars
  /-- Between the tokens there are gaps. -/
  gaps : ∀ stretch ∈ stretches 0 ts (utf8Length text), ∃ gap,
    sliceBytes? stretch.1 stretch.2 text = some gap ∧ isGap gap = true

/-! ## Gaps -/

private theorem isGap_append {a b : List Char} (ha : isGap a = true) (hb : isGap b = true) :
    isGap (a ++ b) = true := by
  fun_induction isGap a with
  | case1 => exact hb
  | case2 text ih => exact ih ha
  | case3 c text notBreak ih =>
    obtain ⟨first, rest⟩ := Bool.and_eq_true_iff.1 ha
    rw [List.cons_append, isGap]
    · rw [first, ih rest]
      rfl
    · rintro text' rfl
      simp [isBlank] at first

private theorem isGap_of_blank {text : List Char} (h : ∀ c ∈ text, isBlank c = true) :
    isGap text = true := by
  induction text with
  | nil => rfl
  | cons c text ih =>
    obtain ⟨first, rest⟩ := List.forall_mem_cons.1 h
    rw [isGap]
    · rw [first, ih rest]
      rfl
    · rintro text' rfl
      contradiction

/-! ## What lexemes are written as -/

/-- Whether a lexeme is written as some characters. -/
def Lexeme.IsWritten (taken : List Char) : Lexeme → Prop
  | .blank | .lineBreak => isGap taken = true
  | .word (some reserved) => reserved.text.toList = taken
  | .symbol mark => mark.text.toList = taken
  | .quoted triple body =>
    StringLiteral.quotes triple ++ body ++ StringLiteral.quotes triple = taken
  | .discretion multiline body =>
    discretionMarker multiline ++ body ++ discretionMarker multiline = taken
  | .faulty fault => fault.isNoToken = true
  | .word none | .number | .comment => True

/-- The reserved word that a text stands for is written as the text. -/
theorem Keyword.text_of_ofText? {word : String} {k : Keyword} (h : Keyword.ofText? word = some k) :
    k.text = word := by
  simpa using List.find?_some h

private theorem Punctuation.text_of_ofChar? {c : Char} {mark : Punctuation}
    (h : Punctuation.ofChar? c = some mark) : mark.text.toList = [c] := by
  unfold Punctuation.ofChar? at h
  split at h <;> first | contradiction | (cases h; rfl)

namespace Cut

variable {text : List Char}

private theorem isWritten_ofTail {opener marker : List Char}
    {hne : opener ≠ []} {t : Tail marker text}
    {closed : List Char → Lexeme} {fault : LexFault} (hf : fault.isNoToken = true)
    (hc : ∀ body, (closed body).IsWritten (opener ++ body ++ marker)) :
    (ofTail opener hne t closed fault).lexeme.IsWritten
    (ofTail opener hne t closed fault).taken := by
  cases ht : t.closed with
  | true => simpa only [ofTail, ht, if_true] using hc t.body
  | false =>
    have lexeme : (ofTail opener hne t closed fault).lexeme = .faulty fault := by simp [ofTail, ht]
    rw [lexeme]
    exact hf

/-- The first lexeme of a text is written as the characters that it takes. -/
theorem isWritten_first (c : Char) (text : List Char) :
    (first c text).lexeme.IsWritten (first c text).taken := by
  unfold first
  split
  · next blank =>
    apply isGap_of_blank
    intro d hd
    rcases List.mem_cons.1 hd with rfl | hd
    · exact blank
    · exact List.all_eq_true.1 List.all_takeWhile d hd
  split
  · dsimp only
    split
    · trivial
    · cases hk : Keyword.ofText? (String.ofList (c :: (Parts.ofName text).taken)) with
      | none => trivial
      | some k =>
        change k.text.toList = c :: (Parts.ofName text).taken
        rw [Keyword.text_of_ofText? hk, String.toList_ofList]
  split
  · trivial
  split
  · rfl
  · rfl
  · trivial
  · exact isWritten_ofTail rfl fun body ↦ rfl
  · exact isWritten_ofTail rfl fun body ↦ rfl
  · exact isWritten_ofTail rfl fun body ↦ rfl
  · exact isWritten_ofTail rfl fun body ↦ rfl
  · rfl
  · split
    · next mark hmark => exact Punctuation.text_of_ofChar? hmark
    · rfl

end Cut

/-- The lexemes of a text are written as their characters. -/
theorem isWritten_of_mem_lexemes {p : Position} {text : List Char} {l : LexemeAt}
    (h : l ∈ lexemes p text) : l.lexeme.IsWritten l.text := by
  fun_induction lexemes p text with
  | case1 => contradiction
  | case2 p c text cut ih =>
    rcases List.mem_cons.1 h with rfl | h
    · exact Cut.isWritten_first c text
    · exact ih h

namespace LexemeAt

/-- The token that stands for a lexeme, if there is one. -/
def token? (l : LexemeAt) : Option Token :=
  match l.lexeme with
  | .blank | .lineBreak => none
  | .comment => some ⟨.comment (String.ofList l.text), l.span⟩
  | .number => some ⟨.number (String.ofList l.text), l.span⟩
  | .word (some reserved) => some ⟨.keyword reserved, l.span⟩
  | .word none => some ⟨.identifier (String.ofList l.text), l.span⟩
  | .symbol mark => some ⟨.symbol mark, l.span⟩
  | .quoted triple body => some ⟨.string (.decode l.span.start triple body), l.span⟩
  | .discretion multiline body => some ⟨.discretion (.ofBody multiline body), l.span⟩
  | .faulty _ => some ⟨.invalid, l.span⟩

variable {l : LexemeAt}

/-- A lexeme that is a token stands for itself. -/
theorem token?_of_kind? {k : TokenKind} (h : l.kind? = some k) : l.token? = some ⟨k, l.span⟩ := by
  unfold kind? at h
  unfold token?
  split at h <;> first | contradiction | (cases h; simp only [*])

/-- A comment stands for itself. -/
theorem token?_of_comment (h : l.lexeme = .comment) :
    l.token? = some ⟨.comment (String.ofList l.text), l.span⟩ := by
  rw [token?, h]

/-- A token has the place of its lexeme, and it is written as that. -/
theorem token?_eq_some {t : Token} (written : l.lexeme.IsWritten l.text) (h : l.token? = some t) :
    t.span = l.span ∧ ∀ s ∈ t.kind.text?, s.toList = l.text := by
  unfold token? at h
  split at h <;> first | contradiction | skip
  all_goals
    next hl =>
    rw [hl] at written
    cases h
    refine ⟨rfl, ?_⟩
    intro s hs
    cases hs <;> first
      | exact String.toList_ofList
      | exact written
      | exact String.toList_ofList.trans written

/-- A lexeme that is no token is a gap. -/
theorem isGap_of_token?_none (written : l.lexeme.IsWritten l.text) (h : l.token? = none) :
    isGap l.text = true := by
  unfold token? at h
  split at h <;> first | contradiction | skip
  all_goals
    next hl =>
    rw [hl] at written
    exact written

end LexemeAt

/-! ## Texts and their tokens -/

/-- Whether a text that starts at `p` consists of some tokens with gaps around them. -/
inductive Covers : Position → List Char → List Token → Prop
  | gap (p : Position) {text : List Char} (h : isGap text = true) : Covers p text []
  | token (p : Position) {gap taken rest : List Char} {kind : TokenKind} {ts : List Token}
      (isGap : isGap gap = true) (taken_ne_nil : taken ≠ [])
      (written : ∀ s ∈ kind.text?, s.toList = taken)
      (others : Covers (p.after (gap ++ taken)) rest ts) :
      Covers p (gap ++ taken ++ rest) (⟨kind, ⟨p.after gap, p.after (gap ++ taken)⟩⟩ :: ts)

/-- A gap may come before tokens with gaps around them. -/
theorem Covers.gap_append {p : Position} {first text : List Char} {ts : List Token}
    (hgap : ProseLang.isGap first = true) (h : Covers (p.after first) text ts) :
    Covers p (first ++ text) ts := by
  cases h with
  | gap _ h => exact .gap p (isGap_append hgap h)
  | token _ gap taken_ne_nil written others =>
    rw [← Position.after_append, ← List.append_assoc] at others
    have whole := Covers.token p (isGap_append hgap gap) taken_ne_nil written others
    simpa only [Position.after_append, List.append_assoc] using whole

/-- The lexemes of a text are its tokens with gaps around them. -/
theorem covers_lexemes (p : Position) (text : List Char) :
    Covers p text ((lexemes p text).filterMap LexemeAt.token?) := by
  fun_induction lexemes p text with
  | case1 p => exact .gap p rfl
  | case2 p c text cut ih =>
    have written : cut.lexeme.IsWritten cut.taken := Cut.isWritten_first c text
    have whole : cut.taken ++ cut.rest = c :: text := cut.taken_append_rest
    rw [List.filterMap_cons]
    cases ht : LexemeAt.token? ⟨cut.lexeme, cut.taken, ⟨p, p.after cut.taken⟩⟩ with
    | none =>
      have covers := Covers.gap_append (LexemeAt.isGap_of_token?_none written ht) ih
      rwa [whole] at covers
    | some t =>
      obtain ⟨kind, span⟩ := t
      obtain ⟨rfl, spelled⟩ := LexemeAt.token?_eq_some written ht
      have covers := Covers.token p (show isGap [] = true from rfl) cut.taken_ne_nil spelled ih
      rwa [List.nil_append, whole] at covers

/-- The stretch of a text behind another one. -/
theorem sliceBytes?_append (before taken rest : List Char) :
    sliceBytes? (utf8Length before) (utf8Length (before ++ taken)) (before ++ taken ++ rest)
      = some taken := by
  have enough : utf8Length before ≤ utf8Length (before ++ taken) := by
    rw [utf8Length_append]
    omega
  have length : utf8Length (before ++ taken) - utf8Length before = utf8Length taken := by
    rw [utf8Length_append]
    omega
  rw [sliceBytes?, if_pos enough, List.append_assoc, dropBytes?_utf8Length, Option.bind_some,
    length, takeBytes?_utf8Length]

/-- A text with a character has a length. -/
theorem utf8Length_pos {text : List Char} (h : text ≠ []) : 0 < utf8Length text := by
  cases text with
  | nil => contradiction
  | cons c text =>
    have := Char.utf8Size_pos c
    rw [utf8Length_cons]
    omega

namespace Covers

variable {p : Position} {text : List Char} {ts : List Token}

/-- Tokens take up room, and none starts before the text. -/
theorem bounds (h : Covers p text ts) :
    ∀ t ∈ ts, p.offset ≤ t.span.start.offset ∧ t.span.start.offset < t.span.stop.offset := by
  induction h with
  | gap => simp
  | @token p gap taken rest kind ts isGap taken_ne_nil written others ih =>
    have room := utf8Length_pos taken_ne_nil
    intro t ht
    rcases List.mem_cons.1 ht with rfl | ht
    · simp only [Position.offset_after, utf8Length_append]
      omega
    · have later := ih t ht
      simp only [Position.offset_after, utf8Length_append] at later
      omega

/-- A token ends before the next one starts. -/
theorem ordered (h : Covers p text ts) :
    ts.Pairwise fun a b ↦ a.span.stop.offset ≤ b.span.start.offset := by
  induction h with
  | gap => exact .nil
  | token p isGap taken_ne_nil written others ih =>
    apply List.Pairwise.cons
    · intro t ht
      exact (others.bounds t ht).1
    · exact ih

/-- A token is written as the characters that it spans. -/
theorem written (h : Covers p text ts) (before : List Char) (hp : p.offset = utf8Length before) :
    ∀ t ∈ ts, ∃ chars,
      sliceBytes? t.span.start.offset t.span.stop.offset (before ++ text) = some chars
        ∧ ∀ s ∈ t.kind.text?, s.toList = chars := by
  induction h generalizing before with
  | gap => simp
  | @token p gap taken rest kind ts isGap taken_ne_nil written others ih =>
    intro t ht
    rcases List.mem_cons.1 ht with rfl | ht
    · refine ⟨taken, ?_, written⟩
      have slice := sliceBytes?_append (before ++ gap) taken rest
      simpa only [Position.offset_after, hp, utf8Length_append, List.append_assoc, Nat.add_assoc]
        using slice
    · have later := ih (before ++ (gap ++ taken))
        (by rw [Position.offset_after, hp, ← utf8Length_append]) t ht
      simpa only [List.append_assoc] using later

/-- Around the tokens there are gaps. -/
theorem gaps (h : Covers p text ts) (before : List Char) (hp : p.offset = utf8Length before) :
    ∀ stretch ∈ stretches p.offset ts (utf8Length (before ++ text)), ∃ gap,
      sliceBytes? stretch.1 stretch.2 (before ++ text) = some gap ∧ isGap gap = true := by
  induction h generalizing before with
  | @gap p text isGap =>
    intro stretch hs
    rw [stretches, List.mem_singleton] at hs
    subst hs
    have slice := sliceBytes?_append before text []
    rw [List.append_nil, ← hp] at slice
    exact ⟨text, slice, isGap⟩
  | @token p gap taken rest kind ts isGap taken_ne_nil written others ih =>
    intro stretch hs
    rw [stretches, List.mem_cons] at hs
    rcases hs with rfl | hs
    · refine ⟨gap, ?_, isGap⟩
      have slice := sliceBytes?_append before gap (taken ++ rest)
      simpa only [Position.offset_after, hp, utf8Length_append, List.append_assoc] using slice
    · have later := ih (before ++ (gap ++ taken))
        (by rw [Position.offset_after, hp, ← utf8Length_append]) stretch
      simp only [List.append_assoc] at later hs ⊢
      exact later hs

end Covers

/-- Tokens that a text consists of make it up. -/
theorem Covers.partition {text : List Char} {ts : List Token} (h : Covers .start text ts) :
    Partition text ts where
  nonempty t ht := (h.bounds t ht).2
  ordered := h.ordered
  written := h.written [] rfl
  gaps := h.gaps [] rfl

/-! ## The layout pass -/

/-- The visible tokens of streams one after the other. -/
theorem visible_append (a b : List Token) : visible (a ++ b) = visible a ++ visible b :=
  List.filter_append ..

private theorem visible_of_layout {ts : List Token} (h : ∀ t ∈ ts, t.kind.isLayout = true) :
    visible ts = [] :=
  List.filter_eq_nil_iff.2 fun t ht ↦ by simp [h t ht]

private theorem visible_comments {ts : List Token} (h : onlyComments ts = true) :
    visible ts = ts := by
  apply List.filter_eq_self.2
  intro t ht
  have comment := List.all_eq_true.1 h t ht
  cases hk : t.kind <;> simp_all [TokenKind.isComment, TokenKind.isLayout]

namespace Layout

/-- Whether no comment waits once a line has a token or a bracket is open. -/
def Flushed (s : Layout) : Prop := s.hasContent = true ∨ 0 < s.depth → s.held = []

variable {s : Layout} {l : LexemeAt}

private theorem visible_ended (s : Layout) : visible s.ended = [] := by
  apply visible_of_layout
  intro t ht
  obtain ⟨span, -, rfl⟩ := List.mem_map.1 ht
  rfl

private theorem visible_dedents (n : Nat) (p : Position) : visible (dedents n p) = [] := by
  apply visible_of_layout
  intro t ht
  rw [List.eq_of_mem_replicate ht]
  rfl

/-- The start of a line lets go of the comments that wait for it. -/
theorem visible_startLine (isPipe : Bool) (p : Position) (held : onlyComments s.held = true) :
    visible (s.startLine isPipe p).2.tokens = s.held ∧ (s.startLine isPipe p).1.held = [] := by
  have comments := visible_comments held
  rcases s.startLine_cases isPipe p with
    ⟨width, span, -, next, out⟩ | ⟨closed, kept, -, -, next, out | out⟩
  · rw [next, out, visible_append, visible_ended]
    exact ⟨comments, rfl⟩
  · rw [next, out, visible_append, visible_append, visible_ended, visible_dedents]
    exact ⟨comments, rfl⟩
  · rw [next, out, visible_append, visible_dedents, List.append_nil]
    exact ⟨comments, rfl⟩

/-- A token comes after the comments that wait for its line. -/
theorem visible_token {k : TokenKind} (span : Span) (flushed : s.Flushed) (plain : k.isPlain = true)
    (held : onlyComments s.held = true) :
    visible (s.token k span).2.tokens = s.held ++ [⟨k, span⟩] ∧ (s.token k span).1.held = [] := by
  have self : visible [⟨k, span⟩] = [⟨k, span⟩] := by
    cases k <;> first | contradiction | rfl
  obtain ⟨depth, next⟩ := s.token_fst k span
  rw [token_snd, visible_append, self, next]
  split
  · obtain ⟨line, after⟩ := visible_startLine (k = .symbol .pipe) span.start held
    exact ⟨by rw [line], after⟩
  · next within =>
    have nothing : s.held = [] := by
      apply flushed
      simp only [Bool.and_eq_true, decide_eq_true_eq, Bool.not_eq_true', not_and] at within
      cases hc : s.hasContent with
      | true => exact .inl rfl
      | false =>
        right
        apply Nat.pos_of_ne_zero
        intro depth
        exact within depth hc
    rw [nothing]
    exact ⟨rfl, rfl⟩

/-- A lexeme gives the comments that wait, and the token that stands for it, in this order; the last
ones may have to wait on. -/
theorem visible_step (flushed : s.Flushed) (held : onlyComments s.held = true) :
    visible (s.step l).2.tokens ++ (s.step l).1.held = s.held ++ l.token?.toList
      ∧ (s.step l).1.Flushed := by
  cases hk : l.kind? with
  | some k =>
    rw [step_of_kind? hk, LexemeAt.token?_of_kind? hk]
    obtain ⟨tokens, after⟩ := visible_token l.span flushed (LexemeAt.isPlain_of_kind? hk) held
    constructor
    · change visible (s.token k l.span).2.tokens ++ (s.token k l.span).1.held = _
      rw [tokens, after, List.append_nil]
      rfl
    · intro _
      exact after
  | none =>
    rcases LexemeAt.lexeme_of_kind?_none hk with hl | hl | hl
    · rw [step_of_blank hl, LexemeAt.token?, hl]
      exact ⟨(List.append_nil _).symm, flushed⟩
    · rw [step_of_lineBreak hl, LexemeAt.token?, hl]
      simp only [lineBreak]
      split
      · exact ⟨(List.append_nil _).symm, flushed⟩
      · next ends =>
        refine ⟨(List.append_nil _).symm, ?_⟩
        have outside : s.depth = 0 := by
          simp only [Bool.or_eq_true, decide_eq_true_eq, not_or] at ends
          omega
        rintro (content | inside)
        · contradiction
        · change 0 < s.depth at inside
          omega
    · rw [step_of_comment hl, LexemeAt.token?_of_comment hl]
      simp only [comment]
      split
      · next within =>
        have nothing : s.held = [] := flushed (by simpa using within)
        refine ⟨?_, flushed⟩
        rw [nothing]
        rfl
      · next outside =>
        refine ⟨rfl, ?_⟩
        intro within
        exact absurd (by simpa using within) outside

private theorem visible_closing (s : Layout) (p : Position) (held : onlyComments s.held = true) :
    visible (s.closing p) = s.held := by
  rw [closing, visible_append, visible_append, visible_dedents, visible_comments held]
  split
  · rfl
  · split <;> rfl

end Layout

/-- Lexemes give the tokens that stand for them. -/
theorem visible_runLayout {s : Layout} (ls : List LexemeAt) (flushed : s.Flushed)
    (held : onlyComments s.held = true) :
    visible (runLayout s ls).2.tokens ++ (runLayout s ls).1.held
      = s.held ++ ls.filterMap LexemeAt.token? := by
  induction ls generalizing s with
  | nil => exact (List.append_nil _).symm
  | cons l ls ih =>
    obtain ⟨here, flushed'⟩ := Layout.visible_step (l := l) flushed held
    have rest := ih flushed' (Layout.held_step held)
    have first : (l :: ls).filterMap LexemeAt.token?
        = l.token?.toList ++ ls.filterMap LexemeAt.token? := by
      rw [List.filterMap_cons]
      cases l.token? <;> rfl
    simp only [runLayout, Tokenized.tokens_append, visible_append]
    rw [List.append_assoc, rest, ← List.append_assoc, here, List.append_assoc, first]

/-- The tokens of a text, layout aside, are those that stand for its lexemes. -/
theorem visible_tokenizeChars (text : List Char) :
    visible (tokenizeChars text).tokens = (lexemes .start text).filterMap LexemeAt.token? := by
  have held : onlyComments (finalLayout text).held = true := held_runLayout rfl
  have run := visible_runLayout (s := {}) (lexemes .start text) (fun _ ↦ rfl) rfl
  rw [tokens_tokenizeChars, visible_append, tokensOf, visible_append,
    Layout.visible_closing _ _ held]
  rw [List.nil_append] at run
  rw [← run]
  exact List.append_nil _

/-! ## What is no token -/

/-- The stretches of text that are reported as no token. -/
def faultySpans (errors : List LexError) : List Span :=
  (errors.filter (·.fault.isNoToken)).map LexError.span

/-- The places of the tokens that stand for no token. -/
def invalidSpans (ts : List Token) : List Span := (ts.filter (·.kind = .invalid)).map Token.span

private theorem faultySpans_append (a b : List LexError) :
    faultySpans (a ++ b) = faultySpans a ++ faultySpans b := by
  rw [faultySpans, List.filter_append, List.map_append]
  rfl

/-- What is wrong within a lexeme is that it is no token, or does not concern tokens. -/
theorem LexemeAt.faultySpans_faults {l : LexemeAt} (written : l.lexeme.IsWritten l.text) :
    faultySpans l.faults = invalidSpans l.token?.toList := by
  cases hl : l.lexeme with
  | quoted triple body =>
    have none : l.faults.filter (·.fault.isNoToken) = [] := by
      simp only [faults, hl]
      apply List.filter_eq_nil_iff.2
      intro e he
      obtain ⟨escape, -, rfl⟩ := List.mem_map.1 he
      simp [LexFault.isNoToken]
    rw [faultySpans, none]
    simp [token?, hl, invalidSpans]
  | faulty fault =>
    have noToken : fault.isNoToken = true := by
      rw [hl] at written
      exact written
    simp [faults, token?, hl, faultySpans, invalidSpans, noToken]
  | word reserved => cases reserved <;> simp [faults, token?, hl, faultySpans, invalidSpans]
  | _ => simp [faults, token?, hl, faultySpans, invalidSpans]

namespace Layout

variable {s : Layout} {l : LexemeAt}

/-- What is wrong with the layout of a line does not concern tokens. -/
theorem faultySpans_startLine (isPipe : Bool) (p : Position) :
    faultySpans (s.startLine isPipe p).2.errors = [] := by
  have tab : faultySpans (s.leadTab?.toList.map fun span ↦ ⟨.tabIndentation, span⟩) = [] := by
    cases s.leadTab? <;> rfl
  simp only [startLine]
  generalize (if s.leadTab?.isSome = true then s.width else s.lead.length) = width
  split
  · exact tab
  · split
    · exact tab
    · rw [faultySpans_append, tab]
      split <;> rfl

private theorem faultySpans_step : faultySpans (s.step l).2.errors = faultySpans l.faults := by
  cases hk : l.kind? with
  | some k =>
    have line : faultySpans (s.token k l.span).2.errors = [] := by
      simp only [token]
      split
      · change faultySpans (_ ++ []) = []
        rw [List.append_nil]
        exact faultySpans_startLine ..
      · rfl
    rw [step_of_kind? hk]
    change faultySpans (l.faults ++ (s.token k l.span).2.errors) = _
    rw [faultySpans_append, line, List.append_nil]
  | none =>
    rcases LexemeAt.lexeme_of_kind?_none hk with hl | hl | hl
    · rw [step_of_blank hl, LexemeAt.faults, hl]
    · rw [step_of_lineBreak hl, LexemeAt.faults, hl]
    · rw [step_of_comment hl, LexemeAt.faults, hl]
      simp only [comment]
      split <;> rfl

end Layout

/-- What is reported as no token is what has a token that is none. -/
theorem faultySpans_runLayout {s : Layout} {ls : List LexemeAt}
    (written : ∀ l ∈ ls, l.lexeme.IsWritten l.text) :
    faultySpans (runLayout s ls).2.errors = invalidSpans (ls.filterMap LexemeAt.token?) := by
  induction ls generalizing s with
  | nil => rfl
  | cons l ls ih =>
    obtain ⟨here, rest⟩ := List.forall_mem_cons.1 written
    simp only [runLayout, Tokenized.errors_append, faultySpans_append]
    rw [Layout.faultySpans_step, LexemeAt.faultySpans_faults here, ih rest, List.filterMap_cons]
    cases l.token? with
    | none => rfl
    | some t =>
      simp only [Option.toList_some, invalidSpans, ← List.map_append, ← List.filter_append]
      rfl

/-- The tokens of every text, layout aside, make it up with gaps around them; those that are none
stand where the text is reported to be none. -/
theorem tokenize_partition (source : String) :
    Partition source.toList (visible (tokenize source).tokens)
      ∧ faultySpans (tokenize source).errors = invalidSpans (visible (tokenize source).tokens) := by
  rw [tokenize, visible_tokenizeChars]
  constructor
  · exact (covers_lexemes .start source.toList).partition
  · have written : ∀ l ∈ lexemes .start source.toList, l.lexeme.IsWritten l.text := by
      intro l hl
      exact isWritten_of_mem_lexemes hl
    have run := faultySpans_runLayout (s := {}) written
    rw [← run]
    exact congrArg faultySpans (List.append_nil _)

end ProseLang
