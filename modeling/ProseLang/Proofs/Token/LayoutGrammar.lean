import ProseLang.Proofs.Token.Layout

/-!
# The layout of token streams

Which token may come next depends on the last one and on the number of open blocks: a line ends
only where it has a token, and a block opens only where a line has ended (`LayoutPoint.next?`).
The tokens of every text keep to this (`layout_tokenize`), whatever is wrong with the text.

What a line of the layout pass may add is read off its state: where a line has begun or has just
ended, the last token is no layout, and where none has begun yet there is no token at all
(`Layout.Tracks`).
-/

namespace ProseLang

/-- The number of tokens of one kind. -/
def countKind (kind : TokenKind) (ts : List Token) : Nat := ts.countP (·.kind = kind)

/-- Whether tokens have the layout of a text. -/
structure HasLayout (ts : List Token) : Prop where
  /-- The file ends once. -/
  one_end : countKind .endOfFile ts = 1
  /-- The file ends with the last token. -/
  ends : ts.getLast?.map Token.kind = some .endOfFile
  /-- Every block that opens is closed. -/
  balanced : countKind .indent ts = countKind .dedent ts
  /-- No block is closed that is not open. -/
  nested : ∀ part, part <+: ts → countKind .dedent part ≤ countKind .indent part
  /-- A block opens at the start of the file or where a line has ended. -/
  indent_after : ∀ before t after, ts = before ++ t :: after → t.kind = .indent →
    before = [] ∨ before.getLast?.map Token.kind = some .newline
  /-- A line ends after a token that is no layout. -/
  newline_after : ∀ before t after, ts = before ++ t :: after → t.kind = .newline →
    ∃ u, before.getLast? = some u ∧ u.kind.isLayout = false

private theorem countKind_append (kind : TokenKind) (a b : List Token) :
    countKind kind (a ++ b) = countKind kind a + countKind kind b := List.countP_append

private theorem countKind_singleton (kind : TokenKind) (t : Token) :
    countKind kind [t] = if t.kind = kind then 1 else 0 := by
  simp [countKind, List.countP_cons]

/-- The tokens of lines and blocks are not the end of the file. -/
theorem Lined.kind_ne_endOfFile {ts : List Token} {t : Token} (h : Lined ts) (ht : t ∈ ts) :
    t.kind ≠ .endOfFile := by
  induction ts with
  | nil => contradiction
  | cons u ts ih =>
    obtain ⟨first, -, -, rest⟩ := h
    rcases List.mem_cons.1 ht with rfl | ht
    · exact first
    · exact ih rest ht

/-! ## Reading layout token by token -/

/-- What the next token of a stream depends on. -/
structure LayoutPoint where
  /-- The kind of the last token. -/
  last : Option TokenKind := none
  /-- The number of open blocks. -/
  opened : Nat := 0

namespace LayoutPoint

/-- The point after one more token, if it may come next. -/
def next? (q : LayoutPoint) (kind : TokenKind) : Option LayoutPoint :=
  match kind with
  | .indent => if q.last.all (· = .newline) then some ⟨some kind, q.opened + 1⟩ else none
  | .dedent => if 0 < q.opened then some ⟨some kind, q.opened - 1⟩ else none
  | .newline => if q.last.any (!·.isLayout) then some ⟨some kind, q.opened⟩ else none
  | kind => some ⟨some kind, q.opened⟩

/-- The point after some tokens, if they may come next. -/
def read? (q : LayoutPoint) (ts : List Token) : Option LayoutPoint :=
  ts.foldlM (fun q t ↦ q.next? t.kind) q

variable {q r : LayoutPoint}

private theorem read?_append (a b : List Token) : q.read? (a ++ b) = (q.read? a).bind (·.read? b) :=
  List.foldlM_append ..

private theorem read?_cons (t : Token) (ts : List Token) :
    q.read? (t :: ts) = (q.next? t.kind).bind (·.read? ts) :=
  List.foldlM_cons

private theorem isSome_next?_indent : (q.next? .indent).isSome = q.last.all (· = .newline) := by
  simp only [next?]
  split <;> simp_all

private theorem isSome_next?_newline : (q.next? .newline).isSome = q.last.any (!·.isLayout) := by
  simp only [next?]
  split <;> simp_all

/-- A token is the last one after it, and the open blocks are counted. -/
theorem next?_eq_some {t : Token} (h : q.next? t.kind = some r) :
    r.last = some t.kind
      ∧ q.opened + countKind .indent [t] = r.opened + countKind .dedent [t] := by
  rw [countKind_singleton, countKind_singleton]
  generalize t.kind = kind at h
  cases kind with
  | indent =>
    obtain ⟨-, h⟩ := Option.ite_none_right_eq_some.1 h
    cases h
    exact ⟨rfl, by simp⟩
  | dedent =>
    obtain ⟨inside, h⟩ := Option.ite_none_right_eq_some.1 h
    cases h
    refine ⟨rfl, ?_⟩
    simp only [reduceCtorEq, if_true, if_false]
    omega
  | newline =>
    obtain ⟨-, h⟩ := Option.ite_none_right_eq_some.1 h
    cases h
    exact ⟨rfl, by simp⟩
  | _ =>
    cases h
    exact ⟨rfl, by simp⟩

/-- The point after some tokens has the last of them, and counts the blocks that they leave open. -/
theorem read?_eq_some {ts : List Token} (h : q.read? ts = some r) :
    r.last = (ts.getLast?.map Token.kind).or q.last
      ∧ q.opened + countKind .indent ts = r.opened + countKind .dedent ts := by
  induction ts generalizing q with
  | nil =>
    cases h
    exact ⟨rfl, rfl⟩
  | cons t ts ih =>
    rw [read?_cons] at h
    obtain ⟨q', next, rest⟩ := Option.bind_eq_some_iff.1 h
    obtain ⟨last, opened⟩ := next?_eq_some next
    obtain ⟨last', opened'⟩ := ih rest
    constructor
    · rw [last', last, List.getLast?_cons]
      cases ts.getLast? <;> rfl
    · have split (kind : TokenKind) : countKind kind (t :: ts)
        = countKind kind [t] + countKind kind ts :=
        countKind_append kind [t] ts
      rw [split, split]
      omega

/-- A token of a stream that is read comes at some point where it may. -/
theorem read?_middle {before after : List Token} {t : Token}
    (h : q.read? (before ++ t :: after) = some r) :
    ∃ q', q.read? before = some q' ∧ (q'.next? t.kind).isSome = true := by
  rw [read?_append] at h
  obtain ⟨q', here, rest⟩ := Option.bind_eq_some_iff.1 h
  rw [read?_cons] at rest
  obtain ⟨r', next, -⟩ := Option.bind_eq_some_iff.1 rest
  exact ⟨q', here, by rw [next]; rfl⟩

/-- A line may end after a token that is no layout. -/
theorem read?_newline_cons {span : Span} (ts : List Token)
    (h : q.last.any (!·.isLayout) = true) :
    q.read? (⟨.newline, span⟩ :: ts) = (⟨some .newline, q.opened⟩ : LayoutPoint).read? ts := by
  have next : q.next? .newline = some ⟨some .newline, q.opened⟩ := if_pos h
  rw [read?_cons, next, Option.bind_some]

/-- Comments may come at any point and open nothing. -/
theorem read?_comments (q : LayoutPoint) {ts : List Token} (h : onlyComments ts = true) :
    ∃ last, q.read? ts = some ⟨last, q.opened⟩ := by
  induction ts generalizing q with
  | nil => exact ⟨q.last, rfl⟩
  | cons t ts ih =>
    rw [onlyComments_cons] at h
    obtain ⟨comment, rest⟩ := Bool.and_eq_true_iff.1 h
    obtain ⟨last, read⟩ := ih ⟨some t.kind, q.opened⟩ rest
    have next : q.next? t.kind = some ⟨some t.kind, q.opened⟩ := by
      generalize t.kind = kind at comment
      cases kind <;> first | contradiction | rfl
    exact ⟨last, by rw [read?_cons, next]; exact read⟩

/-- As many blocks may be closed as are open. -/
theorem read?_dedents (q : LayoutPoint) {n : Nat} (p : Position) (h : n ≤ q.opened) :
    ∃ last, q.read? (Layout.dedents n p) = some ⟨last, q.opened - n⟩ := by
  induction n generalizing q with
  | zero => exact ⟨q.last, rfl⟩
  | succ n ih =>
    obtain ⟨last, read⟩ := ih ⟨some .dedent, q.opened - 1⟩ (by simp only; omega)
    have next : q.next? .dedent = some ⟨some .dedent, q.opened - 1⟩ := if_pos (by omega)
    refine ⟨last, ?_⟩
    rw [Layout.dedents, List.replicate_succ, read?_cons, next]
    refine read.trans ?_
    simp only [Nat.sub_sub, Nat.add_comm]

/-- Tokens that are read from the start up to the end of the file have the layout of a text. -/
theorem hasLayout {ts : List Token} {p : Span} {last : Option TokenKind}
    (h : ({} : LayoutPoint).read? ts = some ⟨last, 0⟩) (inside : ∀ t ∈ ts, t.kind ≠ .endOfFile) :
    HasLayout (ts ++ [⟨.endOfFile, p⟩]) := by
  have whole : ({} : LayoutPoint).read? (ts ++ [⟨.endOfFile, p⟩]) = some ⟨some .endOfFile, 0⟩ := by
    rw [read?_append, h]
    rfl
  constructor
  case one_end =>
    have none : countKind .endOfFile ts = 0 :=
      List.countP_eq_zero.2 fun t ht ↦ by simpa using inside t ht
    rw [countKind_append, none]
    rfl
  case ends => simp
  case balanced =>
    have := (read?_eq_some whole).2
    simpa using this
  case nested =>
    rintro part ⟨rest, hpart⟩
    rw [← hpart, read?_append] at whole
    obtain ⟨q, read, -⟩ := Option.bind_eq_some_iff.1 whole
    have := (read?_eq_some read).2
    simp only at this
    omega
  case indent_after =>
    intro before t after hts indent
    rw [hts] at whole
    obtain ⟨q, read, next⟩ := read?_middle whole
    rw [indent, isSome_next?_indent, (read?_eq_some read).1] at next
    cases hlast : before.getLast? with
    | none => exact .inl (List.getLast?_eq_none_iff.1 hlast)
    | some u =>
      right
      simpa [hlast] using next
  case newline_after =>
    intro before t after hts newline
    rw [hts] at whole
    obtain ⟨q, read, next⟩ := read?_middle whole
    rw [newline, isSome_next?_newline, (read?_eq_some read).1] at next
    cases hlast : before.getLast? with
    | none => simp [hlast] at next
    | some u => exact ⟨u, rfl, by simpa [hlast] using next⟩

end LayoutPoint

/-! ## The layout pass -/

namespace Layout

/-- Whether a layout stands at a point of the stream that it has given so far. -/
structure Tracks (s : Layout) (q : LayoutPoint) : Prop where
  opened : q.opened = s.indents.length
  /-- The line that has begun, or that has just ended, has a token. -/
  line : s.hasContent = true ∨ s.pending.isSome = true → q.last.any (!·.isLayout) = true
  /-- Before the first line there is no token. -/
  first : s.hasContent = false → s.pending = none → q.last = none
  /-- Brackets are open only within a line. -/
  bracket : 0 < s.depth → s.hasContent = true
  held : onlyComments s.held = true

variable {s : Layout} {q : LayoutPoint} {l : LexemeAt}

/-- Where a line starts, the one before may end if it had a token. -/
theorem Tracks.read_ended (h : s.Tracks q) (starts : s.hasContent = false) :
    ∃ last, q.read? s.ended = some ⟨last, q.opened⟩ ∧ last.all (· = .newline) = true := by
  cases hp : s.pending with
  | none =>
    refine ⟨none, ?_, rfl⟩
    rw [ended, hp]
    have := h.first starts hp
    cases q
    simp_all [LayoutPoint.read?]
  | some span =>
    have allowed := h.line (.inr (by rw [hp]; rfl))
    refine ⟨some .newline, ?_, rfl⟩
    rw [ended, hp]
    exact LayoutPoint.read?_newline_cons [] allowed

/-- The start of a line may come where the line before has ended. -/
theorem Tracks.startLine (h : s.Tracks q) (isPipe : Bool) (p : Position)
    (starts : s.hasContent = false) :
    ∃ last, q.read? (s.startLine isPipe p).2.tokens
      = some ⟨last, (s.startLine isPipe p).1.indents.length⟩ := by
  obtain ⟨last, ended, mayOpen⟩ := h.read_ended starts
  rcases s.startLine_cases isPipe p with
    ⟨width, span, -, next, out⟩ | ⟨closed, kept, levels, -, next, out⟩
  · obtain ⟨last', comments⟩ := LayoutPoint.read?_comments ⟨some .indent, q.opened + 1⟩ h.held
    have opens : (LayoutPoint.mk last q.opened).next? .indent = some ⟨some .indent, q.opened + 1⟩ :=
      if_pos mayOpen
    refine ⟨last', ?_⟩
    rw [out, next, LayoutPoint.read?_append, ended, Option.bind_some, LayoutPoint.read?_cons, opens]
    exact comments.trans (by rw [h.opened]; rfl)
  · have enough : closed ≤ q.opened := by have := h.opened; omega
    have left : q.opened - closed = kept.length := by have := h.opened; omega
    rw [next]
    rcases out with out | out
    · obtain ⟨last', dedents⟩ := LayoutPoint.read?_dedents ⟨last, q.opened⟩ p enough
      obtain ⟨last'', comments⟩ := LayoutPoint.read?_comments ⟨last', q.opened - closed⟩ h.held
      refine ⟨last'', ?_⟩
      rw [out, LayoutPoint.read?_append, ended, Option.bind_some, LayoutPoint.read?_append, dedents,
        Option.bind_some, comments, left]
    · obtain ⟨last', comments⟩ := LayoutPoint.read?_comments q h.held
      obtain ⟨last'', dedents⟩ := LayoutPoint.read?_dedents ⟨last', q.opened⟩ p enough
      refine ⟨last'', ?_⟩
      rw [out, LayoutPoint.read?_append, comments, Option.bind_some, dedents, left]

/-- A token may come next. -/
theorem Tracks.token {k : TokenKind} {span : Span} (h : s.Tracks q) (plain : k.isPlain = true) :
    ∃ r, q.read? (s.token k span).2.tokens = some r ∧ (s.token k span).1.Tracks r := by
  have next (q : LayoutPoint) : q.read? [⟨k, span⟩] = some ⟨some k, q.opened⟩ := by
    cases k <;> first | contradiction | rfl
  have noLayout : (!k.isLayout) = true := by
    cases k <;> first | contradiction | rfl
  obtain ⟨depth, after⟩ := s.token_fst k span
  rw [token_snd, LayoutPoint.read?_append, after]
  split
  · next starts =>
    obtain ⟨-, starts⟩ := Bool.and_eq_true_iff.1 starts
    obtain ⟨last, line⟩ := h.startLine (k = .symbol .pipe) span.start
      (by simpa using starts)
    refine ⟨⟨some k, _⟩, by rw [line]; exact next _, rfl, fun _ ↦ noLayout, by simp, by simp, ?_⟩
    rcases s.startLine_cases (decide (k = .symbol .pipe)) span.start with
      ⟨_, _, -, next, -⟩ | ⟨_, _, -, -, next, -⟩ <;> rw [next] <;> rfl
  · exact ⟨⟨some k, q.opened⟩, next q, h.opened, fun _ ↦ noLayout, by simp, by simp, h.held⟩

/-- What a lexeme gives may come next. -/
theorem Tracks.step (h : s.Tracks q) :
    ∃ r, q.read? (s.step l).2.tokens = some r ∧ (s.step l).1.Tracks r := by
  cases hk : l.kind? with
  | some k =>
    rw [step_of_kind? hk]
    exact h.token (LexemeAt.isPlain_of_kind? hk)
  | none =>
    rcases LexemeAt.lexeme_of_kind?_none hk with hl | hl | hl
    · rw [step_of_blank hl]
      exact ⟨q, rfl, h.opened, h.line, h.first, h.bracket, h.held⟩
    · rw [step_of_lineBreak hl]
      refine ⟨q, rfl, ?_⟩
      simp only [lineBreak]
      split
      · exact ⟨h.opened, h.line, h.first, h.bracket, h.held⟩
      · next ends =>
        have content : s.depth = 0 ∧ s.hasContent = true := by simpa using ends
        refine ⟨h.opened, fun _ ↦ h.line (.inl content.2), by simp, ?_, h.held⟩
        intro inside
        change 0 < s.depth at inside
        omega
    · rw [step_of_comment hl]
      simp only [comment]
      split
      · next within =>
        have content : s.hasContent = true := by
          simp only [Bool.or_eq_true, decide_eq_true_eq] at within
          exact within.elim id h.bracket
        refine ⟨⟨some _, q.opened⟩, rfl, h.opened, fun _ ↦ rfl, ?_, h.bracket, h.held⟩
        intro starts
        rw [content] at starts
        contradiction
      · refine ⟨q, rfl, h.opened, h.line, h.first, h.bracket, ?_⟩
        rw [onlyComments_append, h.held]
        rfl

/-- The last line and every open block may end. -/
theorem Tracks.closing (h : s.Tracks q) (p : Position) :
    ∃ last, q.read? (s.closing p) = some ⟨last, 0⟩ := by
  have blocks (last : Option TokenKind) :
      ∃ last', (LayoutPoint.mk last q.opened).read? (dedents s.indents.length p ++ s.held)
        = some ⟨last', 0⟩ := by
    obtain ⟨last', closed⟩ := LayoutPoint.read?_dedents ⟨last, q.opened⟩ p
      (Nat.le_of_eq h.opened.symm)
    obtain ⟨last'', comments⟩ :=
      LayoutPoint.read?_comments ⟨last', q.opened - s.indents.length⟩ h.held
    refine ⟨last'', ?_⟩
    rw [LayoutPoint.read?_append, closed, Option.bind_some, comments, h.opened, Nat.sub_self]
  have line {span : Span} (ends : s.hasContent = true ∨ s.pending.isSome = true) :
      ∃ last, q.read? (⟨.newline, span⟩ :: (dedents s.indents.length p ++ s.held))
        = some ⟨last, 0⟩ := by
    obtain ⟨last, closed⟩ := blocks (some .newline)
    exact ⟨last, by rw [LayoutPoint.read?_newline_cons _ (h.line ends), closed]⟩
  rw [Layout.closing, List.append_assoc]
  cases hp : s.pending with
  | some span => exact line (.inr (by rw [hp]; rfl))
  | none =>
    cases hc : s.hasContent with
    | true => exact line (.inl hc)
    | false => exact blocks q.last

end Layout

/-- What lexemes give may come one after the other. -/
theorem tracks_runLayout {s : Layout} {q : LayoutPoint} (ls : List LexemeAt) (h : s.Tracks q) :
    ∃ r, q.read? (runLayout s ls).2.tokens = some r ∧ (runLayout s ls).1.Tracks r := by
  induction ls generalizing s q with
  | nil => exact ⟨q, rfl, h⟩
  | cons l ls ih =>
    obtain ⟨q', here, tracks⟩ := h.step (l := l)
    obtain ⟨r, rest, tracks'⟩ := ih tracks
    refine ⟨r, ?_, tracks'⟩
    simp only [runLayout, Tokenized.tokens_append, LayoutPoint.read?_append]
    rw [here]
    exact rest

/-- The tokens of every text have the layout of a text. -/
theorem layout_tokenize (source : String) : HasLayout (tokenize source).tokens := by
  have start : ({} : Layout).Tracks {} := ⟨rfl, by simp, fun _ _ ↦ rfl, by simp, rfl⟩
  obtain ⟨q, read, tracks⟩ := tracks_runLayout (lexemes .start source.toList) start
  obtain ⟨last, closed⟩ := tracks.closing (Position.start.after source.toList)
  rw [tokenize, tokens_tokenizeChars]
  apply LayoutPoint.hasLayout
  · rw [tokensOf, LayoutPoint.read?_append, read]
    exact closed
  · intro t ht
    exact (lined_tokensOf source.toList).1.kind_ne_endOfFile ht

end ProseLang
