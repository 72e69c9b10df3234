import Mathlib.Data.List.Pairwise
import ProseLang.Proofs.Token.Holes
import ProseLang.Proofs.Token.Resume

/-!
# Where tokens come from

Every token of a text is one of its lexemes, or layout: the break at the end of a line, the blanks
in front of one, or a point at the start of a lexeme or the end of the text (`tokens_arise`). What
is wrong with a text is wrong within a lexeme or with the blanks in front of a line
(`errors_arise`).
-/

namespace ProseLang

/-! ## The lexemes of a text in order -/

/-- The end of the last of some lexemes of a text that starts at `p`. -/
def reached (p : Position) (ls : List LexemeAt) : Position :=
  (ls.getLast?.map (·.span.stop)).getD p

private theorem reached_cons (p : Position) (l : LexemeAt) (ls : List LexemeAt) :
    reached p (l :: ls) = reached l.span.stop ls := by
  cases ls with
  | nil => rfl
  | cons m ls => simp [reached, List.getLast?_cons]

/-- Whether blanks and comments go on to the end of what they are. -/
def LexemeAt.Stretches (l : LexemeAt) : Prop := l.lexeme = .blank ∨ l.lexeme = .comment

/-- Whether each lexeme starts where the one before ends, and blanks after nothing that would have
taken them. -/
def Contiguous (p : Position) (ls : List LexemeAt) : Prop :=
  ∀ before l after, ls = before ++ l :: after → l.span.start = reached p before
    ∧ ∀ m ∈ before.getLast?, m.Stretches → l.lexeme ≠ .blank

/-- The first character behind those of a class is none of it. -/
theorem head_dropWhile {p : Char → Bool} {text : List Char} {c : Char}
    (h : (text.dropWhile p).head? = some c) : p c = false := by
  induction text with
  | nil => cases h
  | cons d text ih =>
    cases hd : p d with
    | true => exact ih (by simpa [hd] using h)
    | false =>
      obtain rfl : d = c := by simpa [hd] using h
      exact hd

namespace Cut

variable {c d : Char} {text : List Char}

/-- Only blanks are a lexeme of blanks, and a comment goes to the end of the line. -/
theorem first_cases (c : Char) (text : List Char) :
    isBlank c = true ∧ (first c text).rest = text.dropWhile isBlank
      ∨ (first c text).lexeme ≠ .blank
        ∧ ((first c text).lexeme = .comment → (first c text).rest = text.dropWhile (· ≠ '\n')) := by
  have tail {opener marker rest : List Char} {hne : opener ≠ []} {t : Tail marker rest}
      {closed : List Char → Lexeme} {fault : LexFault} {left : List Char}
      (blank : ∀ body, closed body ≠ .blank) (comment : ∀ body, closed body ≠ .comment) :
      (ofTail opener hne t closed fault).lexeme ≠ .blank
        ∧ ((ofTail opener hne t closed fault).lexeme = .comment → t.rest = left) := by
    simp only [ofTail]
    split
    · exact ⟨blank _, fun h ↦ absurd h (comment _)⟩
    · exact ⟨by rintro ⟨⟩, by rintro ⟨⟩⟩
  unfold first
  split
  · next blank => exact .inl ⟨blank, rfl⟩
  · right
    split
    · exact ⟨by rintro ⟨⟩, by rintro ⟨⟩⟩
    · split
      · exact ⟨by rintro ⟨⟩, by rintro ⟨⟩⟩
      · split
        · exact ⟨by rintro ⟨⟩, by rintro ⟨⟩⟩
        · exact ⟨by rintro ⟨⟩, by rintro ⟨⟩⟩
        · exact ⟨by rintro ⟨⟩, fun _ ↦ rfl⟩
        · exact tail (by simp) (by simp)
        · exact tail (by simp) (by simp)
        · exact tail (by simp) (by simp)
        · exact tail (by simp) (by simp)
        · exact ⟨by rintro ⟨⟩, by rintro ⟨⟩⟩
        · split <;> exact ⟨by rintro ⟨⟩, by rintro ⟨⟩⟩

private theorem isBlank_of_lexeme (h : (first c text).lexeme = .blank) : isBlank c = true :=
  (first_cases c text).elim And.left fun other ↦ absurd h other.1

/-- After blanks and comments there is no blank. -/
theorem not_isBlank_of_rest (h : (first c text).lexeme = .blank ∨ (first c text).lexeme = .comment)
    (hd : (first c text).rest.head? = some d) : isBlank d = false := by
  rcases first_cases c text with ⟨-, rest⟩ | ⟨notBlank, rest⟩
  · rw [rest] at hd
    exact head_dropWhile hd
  · rw [rest (h.resolve_left notBlank)] at hd
    obtain rfl : d = '\n' := by simpa using head_dropWhile hd
    rfl

end Cut

/-- The lexemes of a text stand one after the other. -/
theorem contiguous_lexemes (p : Position) (text : List Char) : Contiguous p (lexemes p text) := by
  fun_induction lexemes p text with
  | case1 => exact fun before l after h ↦ by simp at h
  | case2 p c text cut ih =>
    intro before l after h
    cases before with
    | nil =>
      obtain ⟨rfl, -⟩ := List.cons.inj h
      exact ⟨rfl, by rintro _ ⟨⟩⟩
    | cons m before =>
      obtain ⟨rfl, rest⟩ := List.cons.inj h
      obtain ⟨start, blank⟩ := ih before l after rest
      refine ⟨by rw [reached_cons]; exact start, fun m hm stretches ↦ ?_⟩
      cases before with
      | nil =>
        obtain rfl : LexemeAt.mk cut.lexeme cut.taken _ = m := by simpa using hm
        intro hblank
        rw [lexemes.eq_def] at rest
        split at rest
        · cases rest
        · next d left hrest =>
          obtain ⟨rfl, -⟩ := List.cons.inj rest
          have blank := Cut.isBlank_of_lexeme hblank
          rw [Cut.not_isBlank_of_rest stretches (by rw [hrest]; rfl)] at blank
          cases blank
      | cons n before => exact blank m (by simpa [List.getLast?_cons] using hm) stretches

/-- Of things that stand in order, none empty, those that start at one place are one. -/
theorem eq_of_start {α : Type} {span : α → Span} {xs : List α}
    (nonempty : ∀ x ∈ xs, (span x).start.offset < (span x).stop.offset)
    (ordered : xs.Pairwise fun a b ↦ (span a).stop.offset ≤ (span b).start.offset) {x y : α}
    (hx : x ∈ xs) (hy : y ∈ xs) (same : (span x).start = (span y).start) : x = y := by
  let R (x y : α) : Prop := (span x).start = (span y).start → x = y
  have : Std.Symm R := ⟨fun _ _ one start ↦ (one start.symm).symm⟩
  have apart : xs.Pairwise R := ordered.imp_of_mem fun {a b} ha _ before start ↦ by
    have := nonempty a ha
    rw [start] at this
    omega
  exact apart.forall_of_forall (fun _ _ _ ↦ rfl) hx hy same

/-- Lexemes stand in order, and none is empty. -/
theorem lexemes_ordered (p : Position) (text : List Char) :
    (∀ l ∈ lexemes p text, l.span.start.offset < l.span.stop.offset)
      ∧ (lexemes p text).Pairwise fun a b ↦ a.span.stop.offset ≤ b.span.start.offset := by
  constructor
  · intro l hl
    obtain ⟨before, after, -, place⟩ := span_of_mem_lexemes hl
    have room := utf8Length_pos (text_ne_nil_of_mem_lexemes hl)
    rw [place]
    simp only [Position.offset_after, utf8Length_append]
    omega
  · fun_induction lexemes p text with
    | case1 => exact .nil
    | case2 p c text cut ih =>
      refine .cons (fun l hl ↦ ?_) ih
      obtain ⟨before, after, -, place⟩ := span_of_mem_lexemes hl
      rw [place, Position.offset_after _ before]
      exact Nat.le_add_right _ _

/-! ## Tokens and faults -/

/-- Whether a physical line starts at a position: at the start of the text, or after a break. -/
def StartsLine (ls : List LexemeAt) (p : Position) : Prop :=
  p = .start ∨ ∃ l ∈ ls, l.lexeme = .lineBreak ∧ l.span.stop = p

/-- Whether a span goes from the start of a line to its first token. -/
def Leads (ls : List LexemeAt) (s : Span) : Prop :=
  ∃ before l after, ls = before ++ l :: after ∧ s.stop = l.span.start ∧ StartsLine before s.start
    ∧ ∀ m ∈ before, m.kind?.isSome = true → m.span.stop.offset ≤ s.start.offset

/-- How a token of a text that ends at `stop` comes from its lexemes. -/
inductive Token.Arises (ls : List LexemeAt) (stop : Position) : Token → Prop
  | lexeme {l : LexemeAt} {t : Token} (hl : l ∈ ls) (ht : l.token? = some t) : Arises ls stop t
  | lineBreak {l : LexemeAt} (hl : l ∈ ls) (hlex : l.lexeme = .lineBreak) :
    Arises ls stop ⟨.newline, l.span⟩
  | point {k : TokenKind} {p : Position} (layout : k.isLayout = true)
    (start : p = stop ∨ ∃ l ∈ ls, l.span.start = p) : Arises ls stop ⟨k, .point p⟩
  | indent {s : Span} (leads : Leads ls s) : Arises ls stop ⟨.indent, s⟩

/-- How a lexical error of a text comes from its lexemes. -/
inductive LexError.Arises (ls : List LexemeAt) : LexError → Prop
  | lexeme {l : LexemeAt} {e : LexError} (hl : l ∈ ls) (he : e ∈ l.faults) : Arises ls e
  | tab {l : LexemeAt} {before after : List Char} (hl : l ∈ ls)
    (text : l.text = before ++ '\t' :: after) :
    Arises ls ⟨.tabIndentation,
      ⟨l.span.start.after before, (l.span.start.after before).advance '\t'⟩⟩
  | misfit {s : Span} (leads : Leads ls s) : Arises ls ⟨.inconsistentDedent, s⟩

section Growth

variable {ls : List LexemeAt} {stop : Position} (more : List LexemeAt)

private theorem StartsLine.append {p : Position} (h : StartsLine ls p) :
    StartsLine (ls ++ more) p :=
  h.imp_right fun ⟨l, hl, at_⟩ ↦ ⟨l, List.mem_append_left _ hl, at_⟩

private theorem Leads.append {s : Span} (h : Leads ls s) : Leads (ls ++ more) s := by
  obtain ⟨before, l, after, rfl, stop, start, behind⟩ := h
  exact ⟨before, l, after ++ more, by simp, stop, start, behind⟩

private theorem Token.Arises.append {t : Token} (h : t.Arises ls stop) :
    t.Arises (ls ++ more) stop := by
  cases h with
  | lexeme hl ht => exact .lexeme (List.mem_append_left _ hl) ht
  | lineBreak hl hlex => exact .lineBreak (List.mem_append_left _ hl) hlex
  | point layout start =>
    exact .point layout (start.imp_right fun ⟨l, hl, at_⟩ ↦ ⟨l, List.mem_append_left _ hl, at_⟩)
  | indent leads => exact .indent (leads.append more)

private theorem LexError.Arises.append {e : LexError} (h : e.Arises ls) :
    e.Arises (ls ++ more) := by
  cases h with
  | lexeme hl he => exact .lexeme (List.mem_append_left _ hl) he
  | tab hl text => exact .tab (List.mem_append_left _ hl) text
  | misfit leads => exact .misfit (leads.append more)

end Growth

/-- Whether all that is put out comes from some lexemes of a text that ends at `stop`. -/
structure Tokenized.Arises (out : Tokenized) (ls : List LexemeAt) (stop : Position) : Prop where
  tokens : ∀ t ∈ out.tokens, t.Arises ls stop
  errors : ∀ e ∈ out.errors, e.Arises ls

namespace Tokenized.Arises

variable {a b : Tokenized} {ls : List LexemeAt} {stop : Position}

private theorem empty : Tokenized.Arises {} ls stop := ⟨nofun, nofun⟩

private theorem singleton {t : Token} (h : t.Arises ls stop) :
    (Tokenized.ofTokens [t]).Arises ls stop :=
  ⟨List.forall_mem_singleton.2 h, nofun⟩

private theorem append (ha : a.Arises ls stop) (hb : b.Arises ls stop) : (a ++ b).Arises ls stop :=
  ⟨List.forall_mem_append.2 ⟨ha.tokens, hb.tokens⟩, List.forall_mem_append.2 ⟨ha.errors, hb.errors⟩⟩

/-- What comes from some lexemes comes from them and more. -/
theorem mono (h : a.Arises ls stop) (more : List LexemeAt) : a.Arises (ls ++ more) stop :=
  ⟨fun t ht ↦ (h.tokens t ht).append more, fun e he ↦ (h.errors e he).append more⟩

end Tokenized.Arises

namespace Layout

/-- What a layout that has taken in some lexemes keeps of them. -/
structure Since (s : Layout) (done : List LexemeAt) : Prop where
  pending : ∀ span ∈ s.pending, ∃ l ∈ done, l.lexeme = .lineBreak ∧ l.span = span
  lineStart : StartsLine done s.lineStart
  held : ∀ t ∈ s.held, ∃ l ∈ done, l.token? = some t
  /-- On a line without a token, the tokens are all before it. -/
  behind : s.hasContent = false →
    ∀ l ∈ done, l.kind?.isSome = true → l.span.stop.offset ≤ s.lineStart.offset
  /-- On a line without a token, the blanks are those at its start. -/
  lead : s.hasContent = false → s.lead = []
    ∨ ∃ l ∈ done, l.text = s.lead ∧ l.span.start = s.lineStart
  fresh : s.hasContent = false → s.lineStart = reached .start done
    ∨ ∃ l ∈ done.getLast?, l.Stretches

variable {s : Layout} {done : List LexemeAt} {l : LexemeAt} {stop : Position}

private theorem Since.ended_arises (h : s.Since done) : ∀ t ∈ s.ended, t.Arises done stop := by
  intro t ht
  obtain ⟨span, pending, rfl⟩ := List.mem_map.1 ht
  obtain ⟨l, hl, hlex, rfl⟩ := h.pending span (Option.mem_toList.1 pending)
  exact .lineBreak hl hlex

private theorem Since.held_arises (h : s.Since done) : ∀ t ∈ s.held, t.Arises done stop := by
  intro t ht
  obtain ⟨l, hl, token⟩ := h.held t ht
  exact .lexeme hl token

/-- The start of a line comes from the blanks and breaks before its first token. -/
theorem Since.startLine (h : s.Since done) (fresh : s.hasContent = false) (isPipe : Bool) :
    (s.startLine isPipe l.span.start).2.Arises (done ++ [l]) stop := by
  have ended (t : Token) (ht : t ∈ s.ended) : t.Arises (done ++ [l]) stop :=
    (h.ended_arises t ht).append [l]
  have held (t : Token) (ht : t ∈ s.held) : t.Arises (done ++ [l]) stop :=
    (h.held_arises t ht).append [l]
  have dedents (n : Nat) (t : Token) (ht : t ∈ dedents n l.span.start) : t.Arises
    (done ++ [l]) stop := by
    rw [List.eq_of_mem_replicate ht]
    exact .point rfl (.inr ⟨l, by simp, rfl⟩)
  have leads : ProseLang.Leads (done ++ [l]) ⟨s.lineStart, l.span.start⟩ :=
    ⟨done, l, [], rfl, rfl, h.lineStart, h.behind fresh⟩
  have tabs (e : LexError) (he : e ∈ s.leadTab?.toList.map fun span ↦ ⟨.tabIndentation, span⟩) :
      e.Arises (done ++ [l]) := by
    obtain ⟨span, tab, rfl⟩ := List.mem_map.1 he
    obtain ⟨i, hi, rfl⟩ := Option.map_eq_some_iff.1 (Option.mem_toList.1 tab)
    obtain ⟨within, isTab, -⟩ := List.findIdx?_eq_some_iff_getElem.1 hi
    rcases h.lead fresh with none | ⟨b, hb, text, start⟩
    · simp [none] at within
    · rw [← start]
      have splits : b.text = s.lead.take i ++ '\t' :: s.lead.drop (i + 1) := by
        rw [text, ← of_decide_eq_true isTab, ← List.drop_eq_getElem_cons within,
          List.take_append_drop]
      exact .tab (List.mem_append_left _ hb) splits
  simp only [Layout.startLine]
  generalize (if s.leadTab?.isSome = true then s.width else s.lead.length) = w
  split
  · exact ⟨fun t ht ↦ (List.mem_append.1 ht).elim (held t) (dedents _ t), tabs⟩
  · split
    · refine ⟨fun t ht ↦ ?_, tabs⟩
      rcases List.mem_append.1 ht with ht | ht
      · exact ended t ht
      · rcases List.mem_cons.1 ht with rfl | ht
        · exact .indent leads
        · exact held t ht
    · refine ⟨fun t ht ↦ ?_, fun e he ↦ ?_⟩
      · rcases List.mem_append.1 ht with ht | ht
        · exact (List.mem_append.1 ht).elim (ended t) (dedents _ t)
        · exact held t ht
      · rcases List.mem_append.1 he with he | he
        · exact tabs e he
        · split at he
          · cases he
          · obtain rfl := List.mem_singleton.1 he
            exact .misfit leads

/-- A token of which nothing is held back may start a line first, which keeps where the line
starts. -/
theorem opening_keeps (s : Layout) (k : TokenKind) (p : Position) :
    (s.opening k p).1.lineStart = s.lineStart
      ∧ ((s.opening k p).1.pending = none ∨ (s.opening k p).1.pending = s.pending)
      ∧ ((s.opening k p).1.held = [] ∨ (s.opening k p).1.held = s.held) := by
  unfold opening
  split
  · rcases s.startLine_cases (k = .symbol .pipe) p with
      ⟨_, _, -, next, -⟩ | ⟨_, _, -, -, next, -⟩ <;> rw [next] <;> exact ⟨rfl, .inl rfl, .inl rfl⟩
  · exact ⟨rfl, .inr rfl, .inr rfl⟩

namespace Since

private theorem pending_append (h : s.Since done) (l : LexemeAt) :
    ∀ span ∈ s.pending, ∃ m ∈ done ++ [l], m.lexeme = .lineBreak ∧ m.span = span :=
  fun span hs ↦ (h.pending span hs).imp fun _ hm ↦ ⟨List.mem_append_left _ hm.1, hm.2⟩

private theorem held_append (h : s.Since done) (l : LexemeAt) :
    ∀ t ∈ s.held, ∃ m ∈ done ++ [l], m.token? = some t :=
  fun t ht ↦ (h.held t ht).imp fun _ hm ↦ ⟨List.mem_append_left _ hm.1, hm.2⟩

private theorem lead_append (h : s.Since done) (l : LexemeAt) (fresh : s.hasContent = false) :
    s.lead = [] ∨ ∃ m ∈ done ++ [l], m.text = s.lead ∧ m.span.start = s.lineStart :=
  (h.lead fresh).imp_right fun ⟨m, hm, at_⟩ ↦ ⟨m, List.mem_append_left _ hm, at_⟩

/-- A lexeme that is no token leaves those of the line as they are. -/
theorem behind_append (h : s.Since done) (hk : l.kind? = none) (fresh : s.hasContent = false) :
    ∀ m ∈ done ++ [l], m.kind?.isSome = true → m.span.stop.offset ≤ s.lineStart.offset := by
  intro m hm isToken
  rcases List.mem_append.1 hm with hm | hm
  · exact h.behind fresh m hm isToken
  · rw [List.mem_singleton.1 hm, hk] at isToken
    cases isToken

private theorem opening_arises (h : s.Since done) (k : TokenKind) :
    (s.opening k l.span.start).2.Arises (done ++ [l]) stop := by
  unfold opening
  split
  · next starts => exact h.startLine (by simpa using (Bool.and_eq_true_iff.1 starts).2) _
  · exact .empty

/-- After a token the line has one, so only the line break and the comments before it are left to
account for. -/
theorem token {k : TokenKind} (h : s.Since done) (hk : l.kind? = some k) :
    (s.token k l.span).1.Since (done ++ [l]) ∧ (s.token k l.span).2.Arises (done ++ [l]) stop := by
  obtain ⟨sameStart, samePending, sameHeld⟩ := s.opening_keeps k l.span.start
  have token : (⟨k, l.span⟩ : Token).Arises (done ++ [l]) stop :=
    .lexeme (by simp) (LexemeAt.token?_of_kind? hk)
  rw [token_eq]
  refine ⟨⟨?_, sameStart ▸ h.lineStart.append [l], ?_, nofun, nofun, nofun⟩,
    (h.opening_arises k).append (.singleton token)⟩
  · rcases samePending with none | same
    · rw [none]
      nofun
    · rw [same]
      exact h.pending_append l
  · rcases sameHeld with none | same
    · rw [none]
      nofun
    · rw [same]
      exact h.held_append l

/-- Blanks at the start of a line follow the break before it. -/
theorem blank (h : s.Since done) (hl : l.lexeme = .blank)
    (start : l.span.start = reached .start done)
    (apart : ∀ m ∈ done.getLast?, m.Stretches → l.lexeme ≠ .blank) :
    ({ s with lead := l.text } : Layout).Since (done ++ [l]) where
  pending := h.pending_append l
  lineStart := h.lineStart.append [l]
  held := h.held_append l
  behind := h.behind_append (by rw [LexemeAt.kind?, hl])
  lead fresh := by
    refine .inr ⟨l, by simp, rfl, ?_⟩
    rcases h.fresh fresh with at_ | ⟨m, hm, stretches⟩
    · rw [start, at_]
    · exact absurd hl (apart m hm stretches)
  fresh _ := .inr ⟨l, by simp, .inl hl⟩

private theorem lineBreak (h : s.Since done) (hl : l.lexeme = .lineBreak)
    (order : ∀ m ∈ done ++ [l], m.span.stop.offset ≤ l.span.stop.offset) :
    (s.lineBreak l.span).Since (done ++ [l]) := by
  have self : l ∈ done ++ [l] := by simp
  have broken : StartsLine (done ++ [l]) l.span.stop := .inr ⟨l, self, hl, rfl⟩
  have ends : l.span.stop = reached .start (done ++ [l]) := by simp [reached]
  rw [Layout.lineBreak]
  split
  · exact ⟨h.pending_append l, broken, h.held_append l, fun _ m hm _ ↦ order m hm, fun _ ↦ .inl rfl,
      fun _ ↦ .inl ends⟩
  · exact ⟨fun span hs ↦ ⟨l, self, hl, Option.some.inj hs⟩, broken, h.held_append l,
      fun _ m hm _ ↦ order m hm, fun _ ↦ .inl rfl, fun _ ↦ .inl ends⟩

/-- A comment is put out or held back. -/
theorem comment (h : s.Since done) (hl : l.lexeme = .comment) :
    (s.comment (String.ofList l.text) l.span).1.Since (done ++ [l])
      ∧ (s.comment (String.ofList l.text) l.span).2.Arises (done ++ [l]) stop := by
  have self : l ∈ done ++ [l] := by simp
  have token := LexemeAt.token?_of_comment hl
  have lineStart := h.lineStart.append [l]
  have behind := h.behind_append (by rw [LexemeAt.kind?, hl] : l.kind? = none)
  have fresh : s.hasContent = false → s.lineStart = reached .start (done ++ [l])
      ∨ ∃ m ∈ (done ++ [l]).getLast?, m.Stretches := fun _ ↦ .inr ⟨l, by simp, .inr hl⟩
  rw [Layout.comment]
  split
  · exact ⟨⟨h.pending_append l, lineStart, h.held_append l, behind, h.lead_append l, fresh⟩,
      .singleton (.lexeme self token)⟩
  · have held : ∀ t ∈ s.held ++ [⟨.comment (String.ofList l.text), l.span⟩],
        ∃ m ∈ done ++ [l], m.token? = some t :=
      List.forall_mem_append.2 ⟨h.held_append l, List.forall_mem_singleton.2 ⟨l, self, token⟩⟩
    exact ⟨⟨h.pending_append l, lineStart, held, behind, h.lead_append l, fresh⟩, .empty⟩

/-- What a lexeme gives comes from it and those before it. -/
theorem step (stop : Position) (h : s.Since done) (start : l.span.start = reached .start done)
    (apart : ∀ m ∈ done.getLast?, m.Stretches → l.lexeme ≠ .blank)
    (order : ∀ m ∈ done ++ [l], m.span.stop.offset ≤ l.span.stop.offset) :
    (s.step l).1.Since (done ++ [l]) ∧ (s.step l).2.Arises (done ++ [l]) stop := by
  cases hk : l.kind? with
  | some k =>
    have faults : Tokenized.Arises ⟨[], l.faults⟩ (done ++ [l]) stop :=
      ⟨nofun, fun e he ↦ .lexeme (by simp) he⟩
    have taken : (s.token k l.span).1.Since (done ++ [l])
        ∧ (s.token k l.span).2.Arises (done ++ [l]) stop := h.token hk
    rw [step_of_kind? hk, faultyToken]
    exact ⟨taken.1, faults.append taken.2⟩
  | none =>
    rcases LexemeAt.lexeme_of_kind?_none hk with hl | hl | hl
    · rw [step_of_blank hl]
      exact ⟨h.blank hl start apart, .empty⟩
    · rw [step_of_lineBreak hl]
      exact ⟨h.lineBreak hl order, .empty⟩
    · rw [step_of_comment hl]
      exact h.comment hl

end Since

private theorem Since.closing_arises (h : s.Since done) :
    ∀ t ∈ s.closing stop, t.Arises done stop := by
  intro t ht
  simp only [Layout.closing, List.mem_append] at ht
  rcases ht with (ht | ht) | ht
  · split at ht
    · next span pending =>
      obtain ⟨l, hl, hlex, rfl⟩ := h.pending span pending
      rw [List.mem_singleton.1 ht]
      exact .lineBreak hl hlex
    · split at ht
      · rw [List.mem_singleton.1 ht]
        exact .point rfl (.inl rfl)
      · cases ht
  · rw [List.eq_of_mem_replicate ht]
    exact .point rfl (.inl rfl)
  · exact h.held_arises t ht

end Layout

/-- What lexemes give comes from them. -/
theorem since_runLayout {s : Layout} {done ls : List LexemeAt} (stop : Position) (h : s.Since done)
    (contiguous : Contiguous .start (done ++ ls))
    (order : (done ++ ls).Pairwise fun a b ↦ a.span.stop.offset ≤ b.span.stop.offset) :
    (runLayout s ls).1.Since (done ++ ls) ∧ (runLayout s ls).2.Arises (done ++ ls) stop := by
  induction ls generalizing s done with
  | nil => exact ⟨by rwa [List.append_nil], .empty⟩
  | cons l ls ih =>
    obtain ⟨start, blank⟩ := contiguous done l ls rfl
    have here : ∀ m ∈ done ++ [l], m.span.stop.offset ≤ l.span.stop.offset := by
      intro m hm
      rcases List.mem_append.1 hm with hm | hm
      · exact (List.pairwise_append.1 order).2.2 m hm l List.mem_cons_self
      · obtain rfl := List.mem_singleton.1 hm
        exact Nat.le_refl _
    obtain ⟨since, arises⟩ := h.step stop start blank here
    have whole : done ++ l :: ls = done ++ [l] ++ ls := by simp
    rw [whole] at contiguous order ⊢
    obtain ⟨since', arises'⟩ := ih since contiguous order
    exact ⟨since', (arises.mono ls).append arises'⟩

/-- Every token of a text, and everything that is wrong with it, comes from its lexemes. -/
theorem tokens_arise (text : List Char) :
    (tokenizeChars text).Arises (lexemes .start text) (Position.start.after text) := by
  have start : ({} : Layout).Since [] :=
    ⟨nofun, .inl rfl, nofun, nofun, fun _ ↦ .inl rfl, fun _ ↦ .inl rfl⟩
  obtain ⟨nonempty, order⟩ := lexemes_ordered .start text
  have stops := order.imp_of_mem (S := fun a b ↦ a.span.stop.offset ≤ b.span.stop.offset)
    fun {a b} _ hb before ↦ Nat.le_trans before (Nat.le_of_lt (nonempty b hb))
  obtain ⟨since, arises⟩ := since_runLayout (Position.start.after text) start
    (contiguous_lexemes .start text) stops
  refine ⟨fun t ht ↦ ?_, fun e he ↦ ?_⟩
  · rw [tokens_tokenizeChars, tokensOf, List.mem_append, List.mem_append, List.mem_singleton] at ht
    rcases ht with (ht | ht) | rfl
    · exact arises.tokens t ht
    · exact since.closing_arises t ht
    · exact .point rfl (.inl rfl)
  · rcases List.mem_append.1 he with he | he
    · exact arises.errors e he
    · cases he

/-- Layout stands where no lexeme that is a token does. -/
theorem span_ne_of_isLayout {text : List Char} {t : Token} (ht : t ∈ (tokenizeChars text).tokens)
    (layout : t.kind.isLayout = true) {l : LexemeAt} (hl : l ∈ lexemes .start text)
    (token : l.kind?.isSome = true) : t.span ≠ l.span := by
  obtain ⟨nonempty, order⟩ := lexemes_ordered .start text
  have long := nonempty l hl
  intro same
  cases (tokens_arise text).1 t ht with
  | lexeme hm hk =>
    unfold LexemeAt.token? at hk
    split at hk <;> first | contradiction | (cases hk; cases layout)
  | @lineBreak m hm hlex =>
    obtain rfl : m = l := eq_of_start nonempty order hm hl (congrArg Span.start same)
    rw [LexemeAt.kind?, hlex] at token
    cases token
  | point =>
    rw [← same] at long
    exact Nat.lt_irrefl _ long
  | indent leads =>
    obtain ⟨before, m, after, whole, stop, -, behind⟩ := leads
    dsimp only at same
    subst same
    rw [whole] at hl order
    rcases List.mem_append.1 hl with hl | hl
    · have := behind l hl token
      omega
    · rcases List.mem_cons.1 hl with rfl | hl
      · rw [stop] at long
        omega
      · have later := (List.pairwise_cons.1 (List.pairwise_append.1 order).2.1).1 l hl
        have self := nonempty m (whole ▸ List.mem_append_right _ List.mem_cons_self)
        rw [stop] at long
        omega

end ProseLang
