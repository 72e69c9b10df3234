import ProseLang.Proofs.Grammar.Source
import ProseLang.Proofs.Grammar.Spans
import ProseLang.Proofs.Token.Partition

/-!
# Statements and the tokens of a text

Nothing of a text that is read without errors is left out of its program: every token belongs to
one statement outside of blocks, except for layout, comments and the arrows between two sessions
(`statements_cover`), and every comment is recorded once.

Reading moves a cursor forward, so what a statement is read from is a stretch of the stream
(`Cursor.Follows`), and the statement spans it (`Parser.oneStatement_spans`). Tokens are passed over
in another way only after an error, and errors are not taken back.
-/

namespace ProseLang

open Cursor (lastEndAfter)

/-- Whether statements stand on some tokens one after the other, with nothing but layout and arrows
around them. -/
inductive Spread : List Token → List Statement → Prop
  | nil : Spread [] []
  | between {t : Token} {ts : List Token} {ss : List Statement}
      (outside : t.kind.isLayout = true ∨ t.kind = .symbol .arrow) (others : Spread ts ss) :
      Spread (t :: ts) ss
  | statement {t : Token} {taken ts : List Token} {s : Statement} {ss : List Statement}
      (visible : t.kind.isLayout = false)
      (span : s.span = ⟨t.span.start, lastEndAfter t.span.stop taken⟩) (others : Spread ts ss) :
      Spread (t :: (taken ++ ts)) (s :: ss)

/-- Statements on one stretch of tokens and then on another. -/
theorem Spread.append {ts us : List Token} {ss rs : List Statement} (h : Spread ts ss)
    (h' : Spread us rs) : Spread (ts ++ us) (ss ++ rs) := by
  induction h with
  | nil => exact h'
  | between outside _ ih => exact .between outside ih
  | @statement t taken ts s ss visible span _ ih =>
    rw [List.cons_append, List.append_assoc]
    exact .statement visible span ih

/-- Tokens outside of statements. -/
theorem Spread.of_between {ts : List Token}
    (h : ∀ t ∈ ts, t.kind.isLayout = true ∨ t.kind = .symbol .arrow) : Spread ts [] := by
  induction ts with
  | nil => exact .nil
  | cons t ts ih =>
    apply Spread.between
    · exact h t List.mem_cons_self
    · apply ih
      intro u hu
      exact h u (List.mem_cons_of_mem t hu)

namespace Cursor

/-- Whether statements stand on the tokens between two cursors. -/
def Spreads (c d : Cursor) (ss : List Statement) : Prop :=
  ∃ taken, c.rest = taken ++ d.rest ∧ Spread taken ss

variable {c d : Cursor}

private theorem Spreads.refl (c : Cursor) : c.Spreads c [] := ⟨[], rfl, .nil⟩

private theorem Spreads.trans {a : Cursor} {ss rs : List Statement} (h : c.Spreads d ss)
    (h' : d.Spreads a rs) : c.Spreads a (ss ++ rs) := by
  obtain ⟨taken, rest, spread⟩ := h
  obtain ⟨taken', rest', spread'⟩ := h'
  refine ⟨taken ++ taken', ?_, spread.append spread'⟩
  rw [rest, rest', List.append_assoc]

/-- A token outside of statements is passed over. -/
theorem spreads_advance
    (h : c.rest ≠ [] → c.current.kind.isLayout = true ∨ c.current.kind = .symbol .arrow) :
    c.Spreads c.advance [] := by
  cases hc : c.rest with
  | nil =>
    have same : c.advance = c := by rw [advance, hc]
    rw [same]
    exact .refl c
  | cons t ts =>
    have outside : t.kind.isLayout = true ∨ t.kind = .symbol .arrow := by
      have := h (by rw [hc]; simp)
      simpa only [current, hc, List.headD_cons] using this
    refine ⟨[t], ?_, .between outside .nil⟩
    rw [hc, advance, hc]
    rfl

/-- The ends of lines are passed over. -/
theorem spreads_skipNewlines (c : Cursor) : c.Spreads c.skipNewlines [] := by
  refine ⟨c.rest.takeWhile (·.kind = .newline), ?_, .of_between ?_⟩
  · rw [skipNewlines, rest_skip]
    exact (List.prefix_iff_eq_append.1 (List.takeWhile_prefix _)).symm
  · intro t ht
    have newline := List.all_eq_true.1 List.all_takeWhile t ht
    left
    rw [of_decide_eq_true newline]
    rfl

private theorem current_skipNewlines_ne {L : Nat} (h : c.Stands L) :
    c.skipNewlines.current.kind ≠ .newline := by
  have left : c.skipNewlines.rest = c.rest.dropWhile (·.kind = .newline) := by
    have skipped := List.prefix_iff_eq_append.1
      (List.takeWhile_prefix (l := c.rest) (·.kind = .newline))
    rw [skipNewlines, rest_skip]
    exact List.append_cancel_left (skipped.trans List.takeWhile_append_dropWhile.symm)
  intro hk
  cases hc : c.skipNewlines.rest with
  | nil =>
    rw [h.skipNewlines.current_of_nil hc] at hk
    contradiction
  | cons t ts =>
    have head := List.head?_dropWhile_not (·.kind = .newline) c.rest
    rw [← left, hc] at head
    have : t.kind = .newline := by simpa only [current, hc, List.headD_cons] using hk
    simp [this] at head

/-- A statement that spans the tokens between two cursors stands on them. -/
theorem spreads_of_span {s : Statement} (follows : c.Follows d)
    (shorter : d.rest.length < c.rest.length) (visible : c.current.kind.isLayout = false)
    (span : s.span = ⟨c.current.span.start, d.lastEnd⟩) : c.Spreads d [s] := by
  obtain ⟨taken, rest, last⟩ := follows.passed
  refine ⟨taken, rest, ?_⟩
  cases taken with
  | nil =>
    rw [rest] at shorter
    exact absurd shorter (Nat.lt_irrefl _)
  | cons t taken =>
    have current : c.current = t := by
      rw [current, rest]
      rfl
    rw [current] at visible span
    have ends : d.lastEnd = lastEndAfter t.span.stop taken := by
      rw [last, lastEndAfter, List.foldl_cons, visible]
      rfl
    have spread : Spread (t :: (taken ++ [])) [s] :=
      .statement visible (by rw [span, ends]) .nil
    rwa [List.append_nil] at spread

end Cursor

/-! ## Reading a statement -/

namespace Parser

variable {c d : Cursor} {L n : Nat} {g : Nested} {pipes : Bool}

private theorem not_isLayout_of_kind {word : Keyword} (h : c.current.kind = .keyword word) :
    c.current.kind.isLayout = false := by
  rw [h]
  rfl

/-- A session that is read stands on the tokens that it is read from, and the arrow after it stands
on its own. -/
theorem sessionRound_spreads (hg : Agrees .alone n g g) (h : c.Live L (n + 1))
    {read : List Statement} {ending : RoundEnd}
    (run : sessionRound g pipes c = ((read, ending), d)) (ends : ∀ f, ending ≠ .fail f) :
    c.Spreads d read := by
  obtain ⟨k, hk⟩ : ∃ k, c.rest.length = k + 1 :=
    Nat.exists_eq_add_one.2 (List.length_pos_iff.2 h.ne_nil)
  have hle : k ≤ n := by
    have := h.length_le
    omega
  have live : c.Live L (k + 1) := { h with length_le := Nat.le_of_eq hk }
  obtain @⟨_, _, a, here, -, follows, same⟩ := session_reads (hg.mono hle) pipes live
  unfold sessionRound at run
  rw [state_bind (p := get) (x := c) (d := c) rfl,
    state_bind (show (session g pipes).run c = _ from here)] at run
  cases same with
  | error =>
    cases run
    exact absurd rfl (ends _)
  | @ok s ha =>
    dsimp only at run
    have visible := not_isLayout_of_kind (kind_of_session here)
    have shorter : a.rest.length < c.rest.length := by
      have := ha.length_le
      omega
    have span : s.span = ⟨c.current.span.start, a.lastEnd⟩ := session_spans pipes s a here
    by_cases arrow : a.current.kind = .symbol .arrow
    · have taken : (take? (.symbol .arrow)).run a = (.ok (some a.current), a.advance) := by
        change take? _ a = _
        rw [take?_apply, if_pos arrow]
      rw [state_bind taken] at run
      dsimp only at run
      rw [state_bind (p := get) (x := a.advance) (d := a.advance) rfl] at run
      have first : c.Spreads a [.action (.session { s with arrow := some a.current.span })] :=
        Cursor.spreads_of_span follows shorter visible span
      split at run
      · cases run
        exact first.trans (Cursor.spreads_advance fun _ ↦ .inr arrow)
      · cases run
        exact absurd rfl (ends _)
    · have left : (take? (.symbol .arrow)).run a = (.ok none, a) := by
        change take? _ a = _
        rw [take?_apply, if_neg arrow]
      rw [state_bind left] at run
      dsimp only at run
      rw [state_bind (p := get) (x := a) (d := a) rfl] at run
      split at run
      · obtain @⟨_, _, b, piped, -, follows', same⟩ :=
          pipeTail_reads (hg.mono hle) (.action (.session s)) c.current.span ha
        rw [state_bind (show (pipeTail g _ c.current.span).run a = _ from piped)] at run
        cases same with
        | error =>
          cases run
          exact absurd rfl (ends _)
        | @ok p hb =>
          cases run
          apply Cursor.spreads_of_span (follows.trans follows') _ visible
          · exact pipeTail_spans _ _ a p d piped
          · exact Nat.lt_of_le_of_lt follows'.length_le shorter
      · cases run
        exact Cursor.spreads_of_span follows shorter visible span

/-- The sessions of an arrow sequence stand on the tokens that they are read from. -/
theorem sessions_spread (hg : Agrees .alone n g g) (h : c.Live L (n + 1)) {read : List Statement}
    (run : rounds (sessionRound g pipes) c = ((read, none), d)) : c.Spreads d read := by
  induction hc : c.rest.length using Nat.strongRecOn generalizing c read with
  | ind k ih =>
    rcases round : sessionRound g pipes c with ⟨⟨first, ending⟩, a⟩
    cases ending with
    | fail f =>
      rw [rounds_fail round] at run
      cases run
    | stop =>
      rw [rounds_stop round] at run
      cases run
      exact sessionRound_spreads hg h round (by simp)
    | again =>
      have here : c.Spreads a first := sessionRound_spreads hg h round (by simp)
      by_cases shorter : a.rest.length < c.rest.length
      · have live : a.Live L (n + 1) := by
          obtain @⟨_, _, b, there, -, -, same⟩ := sessionRound_reads hg pipes h
          rw [round] at there
          cases there
          cases same with
          | again live => exact live
        rw [rounds_again round shorter] at run
        rcases rest : rounds (sessionRound g pipes) a with ⟨⟨more, error⟩, b⟩
        rw [rest] at run
        cases run
        exact here.trans (ih a.rest.length (hc ▸ shorter) live rest rfl)
      · rw [rounds_stuck round shorter] at run
        cases run
        exact here

/-- A statement stands on the tokens that it is read from. -/
theorem statement_spreads (hg : Agrees .alone n g g) (h : c.Stands L) (hne : c.rest ≠ [])
    (hn : c.rest.length ≤ n + 1) (visible : c.current.kind.isLayout = false)
    {read : List Statement} (run : statement g pipes c = ((read, none), d)) : c.Spreads d read := by
  rw [statement_apply] at run
  split at run
  · next hk =>
    have live : c.Live L (n + 1) := by
      obtain ⟨t, ts, ht⟩ := List.exists_cons_of_ne_nil hne
      have starts : t.kind = .keyword .session := by simpa [Cursor.current, ht] using hk
      have plain : startsPlainly c.rest = true := by
        simp [ht, startsPlainly, starts, TokenKind.isComment]
      exact { h with length_le := hn, starts := plain }
    exact sessions_spread hg live run
  · obtain ⟨k, hk⟩ : ∃ k, c.rest.length = k + 1 :=
      Nat.exists_eq_add_one.2 (List.length_pos_iff.2 hne)
    have hle : k ≤ n := by omega
    obtain @⟨_, _, a, here, -, follows, same⟩ :=
      oneStatement_reads (hg.mono hle) pipes h hne (Nat.le_of_eq hk)
    rw [ExceptT.run, here] at run
    cases same with
    | error => cases run
    | @ok _ ha =>
      obtain ⟨s, one, rfl⟩ := map_eq_ok here
      cases run
      apply Cursor.spreads_of_span follows _ visible
      · exact oneStatement_spans pipes hne s _ one
      · have := ha.length_le
        omega

/-- Where a statement ends, at most the end of its line is passed over. -/
theorem endStatement_spreads (run : endStatement c = (.ok (), d)) : c.Spreads d [] := by
  cases ended : c.previous.any TokenKind.endsStatement with
  | true =>
    rw [endStatement_apply_of_ended ended] at run
    cases run
    exact .refl c
  | false =>
    rw [endStatement_apply_of_not_ended ended] at run
    obtain ⟨kind, a, here, rest⟩ := bind_eq_ok run
    cases here
    cases hk : c.current.kind with
    | newline =>
      rw [hk] at rest
      cases rest
      apply Cursor.spreads_advance
      intro _
      left
      rw [hk]
      rfl
    | dedent | endOfFile =>
      rw [hk] at rest
      cases rest
      exact .refl c
    | _ =>
      rw [hk] at rest
      cases rest

/-- Where a statement should end but does not, nothing is passed over. -/
theorem endStatement_error {f : ParseError} (run : endStatement c = (.error f, d)) : d = c := by
  cases ended : c.previous.any TokenKind.endsStatement with
  | true =>
    rw [endStatement_apply_of_ended ended] at run
    cases run
  | false =>
    rw [endStatement_apply_of_not_ended ended] at run
    exact endOfLine_error run

end Parser

/-! ## Reading all statements -/

section Clean

variable {c d : Cursor} {depth : Nat}

/-- What is read in a round without errors stands on the tokens of the round. -/
theorem round_spreads (h : c.Stands 0) (hne : c.skipNewlines.rest ≠ [])
    (hd : c.rest.length ≤ depth) {read : List Statement}
    (round : Parser.statementRound ((Nested.upTo depth).statement true) false c
      = ((read, .again), d)) (clean : d.errors = []) : c.Spreads d read := by
  have stands := h.skipNewlines
  have ahead : c.skipNewlines.rest.length ≤ c.rest.length := (Cursor.Follows.skip c _).length_le
  obtain ⟨k, rfl⟩ : ∃ k, depth = k + 1 := by
    have := List.length_pos_iff.2 hne
    exact ⟨depth - 1, by omega⟩
  have notEnd := Parser.current_ne_endOfFile stands hne
  have notDedent := Parser.current_ne_dedent stands
  by_cases hindent : c.skipNewlines.current.kind = .indent
  · rw [Parser.statementRound_apply, hindent] at round
    cases round
    exact absurd clean (errors_recover_ne_nil stands.rejected _)
  have visible : c.skipNewlines.current.kind.isLayout = false := by
    have notNewline := Cursor.current_skipNewlines_ne h
    cases hk : c.skipNewlines.current.kind <;> simp_all [TokenKind.isLayout]
  have hg : Agrees .alone (k + 1) (.upTo (k + 1)) (.upTo (k + 1)) :=
    agrees_upTo (Nat.le_refl _) (Nat.le_refl _)
  obtain @⟨_, _, a, here, -, -, same⟩ :=
    hg.statement true stands hne (Nat.le_trans ahead hd)
  rw [Parser.statementRound_at_statement _ _ notEnd notDedent hindent, here] at round
  cases same with
  | some stands' =>
    cases round
    exact absurd clean (errors_recover_ne_nil stands'.rejected _)
  | all ha =>
    have read : c.skipNewlines.Spreads a _ := Parser.statement_spreads
      (agrees_upTo (Nat.le_refl k) (Nat.le_refl k)) stands hne (Nat.le_trans ahead hd) visible here
    rcases ends : Parser.endStatement a with ⟨f | ⟨⟩, b⟩
    · obtain rfl := Parser.endStatement_error ends
      have failed := Parser.recovering_error ends
      cases round
      rw [Parser.afterStatement, failed] at clean
      exact absurd clean (errors_recover_ne_nil ha.1.rejected _)
    · have ended := Parser.recovering_ok ends
      cases round
      rw [Parser.afterStatement, ended]
      have whole := (Cursor.spreads_skipNewlines c).trans
        (read.trans (Parser.endStatement_spreads ends))
      rwa [List.nil_append, List.append_nil] at whole

/-- What is read without errors stands on all tokens. -/
theorem readAll_spreads (h : c.Stands 0) (hd : c.rest.length ≤ depth)
    (clean : (readAll depth c).2.errors = []) : Spread c.rest (readAll depth c).1.1 := by
  induction hc : c.rest.length using Nat.strongRecOn generalizing c with
  | ind k ih =>
    by_cases hnil : c.skipNewlines.rest = []
    · obtain ⟨taken, rest, spread⟩ := c.spreads_skipNewlines
      rw [hnil, List.append_nil] at rest
      rw [readAll, rounds_stop (Parser.statementRound_at_end _ h.final hnil), rest]
      exact spread
    · obtain ⟨read, d, round, -, follows, hd', shorter⟩ :=
        Parser.round_within (e := .alone) (agrees_upTo hd hd) h (Nat.le_refl _) hnil fun _ ↦ rfl
      have left : d.rest.length ≤ depth := by omega
      have run := rounds_again round shorter
      rw [readAll, run] at clean ⊢
      have noErrors : d.errors = [] := by
        cases errors : d.errors with
        | nil => rfl
        | cons f fs =>
          exact absurd clean (errors_readAll_ne_nil hd' left (by rw [errors]; simp))
      obtain ⟨taken, rest, spread⟩ := round_spreads h hnil hd round noErrors
      rw [rest]
      exact spread.append (ih d.rest.length (hc ▸ shorter) hd' left clean rfl)

end Clean

/-! ## Tokens in their order -/

/-- Whether a span lies within another. -/
def Span.encloses (s t : Span) : Bool :=
  s.start.offset ≤ t.start.offset && t.stop.offset ≤ s.stop.offset

/-- Whether the tokens that stand for text stand one after the other. -/
structure InOrder (ts : List Token) : Prop where
  nonempty : ∀ t ∈ visible ts, t.span.start.offset < t.span.stop.offset
  ordered : (visible ts).Pairwise fun a b ↦ a.span.stop.offset ≤ b.span.start.offset

/-- A visible token is one that is no layout. -/
theorem mem_visible {t : Token} {ts : List Token} :
    t ∈ visible ts ↔ t ∈ ts ∧ t.kind.isLayout = false := by
  simp [visible]

private theorem visible_cons {t : Token} (ts : List Token) (h : t.kind.isLayout = false) :
    visible (t :: ts) = t :: visible ts := by
  simp [visible, h]

/-- Layout in front is not visible. -/
theorem visible_cons_of_layout {t : Token} (ts : List Token) (h : t.kind.isLayout = true) :
    visible (t :: ts) = visible ts := by
  simp [visible, h]

namespace InOrder

variable {t : Token} {ts us : List Token}

/-- Some of the tokens in order are in order. -/
theorem sublist (h : InOrder us) (hs : ts.Sublist us) : InOrder ts where
  nonempty t ht := h.nonempty t ((hs.filter _).subset ht)
  ordered := h.ordered.sublist (hs.filter _)

/-- Tokens in order are in order from the second one on. -/
theorem tail (h : InOrder (t :: ts)) : InOrder ts := h.sublist (List.sublist_cons_self t ts)

/-- What comes after a token starts after it. -/
theorem after_head (h : InOrder (t :: ts)) (visible : t.kind.isLayout = false) :
    ∀ u ∈ ProseLang.visible ts, t.span.stop.offset ≤ u.span.start.offset := by
  have ordered := h.ordered
  rw [visible_cons ts visible] at ordered
  exact (List.pairwise_cons.1 ordered).1

/-- What comes after a stretch of tokens starts after each of them. -/
theorem after_append (h : InOrder (ts ++ us)) :
    ∀ t ∈ visible ts, ∀ u ∈ visible us, t.span.stop.offset ≤ u.span.start.offset := by
  have ordered := h.ordered
  rw [visible_append] at ordered
  exact (List.pairwise_append.1 ordered).2.2

/-- No token of a stretch ends after the last one. -/
theorem le_lastEndAfter {p : Position} (h : InOrder ts)
    (hp : ∀ t ∈ visible ts, p.offset ≤ t.span.start.offset) :
    p.offset ≤ (lastEndAfter p ts).offset
      ∧ ∀ t ∈ visible ts, t.span.stop.offset ≤ (lastEndAfter p ts).offset := by
  induction ts generalizing p with
  | nil => exact ⟨Nat.le_refl _, by simp [visible]⟩
  | cons t ts ih =>
    cases layout : t.kind.isLayout with
    | true =>
      rw [visible_cons_of_layout ts layout] at hp ⊢
      have last : lastEndAfter p (t :: ts) = lastEndAfter p ts := by
        rw [lastEndAfter, List.foldl_cons, layout]
        rfl
      rw [last]
      exact ih h.tail hp
    | false =>
      have last : lastEndAfter p (t :: ts) = lastEndAfter t.span.stop ts := by
        rw [lastEndAfter, List.foldl_cons, layout]
        rfl
      obtain ⟨here, later⟩ := ih h.tail (h.after_head layout)
      rw [visible_cons ts layout] at hp ⊢
      have first := hp t List.mem_cons_self
      have room := h.nonempty t (mem_visible.2 ⟨List.mem_cons_self, layout⟩)
      rw [last]
      constructor
      · omega
      · intro u hu
        rcases List.mem_cons.1 hu with rfl | hu
        · exact here
        · exact later u hu

end InOrder

/-- The last token of a stretch ends where one of its tokens does. -/
theorem lastEndAfter_le {p : Position} {ts : List Token} {n : Nat} (hp : p.offset ≤ n)
    (h : ∀ t ∈ visible ts, t.span.stop.offset ≤ n) : (lastEndAfter p ts).offset ≤ n := by
  induction ts generalizing p with
  | nil => exact hp
  | cons t ts ih =>
    rw [lastEndAfter, List.foldl_cons]
    cases layout : t.kind.isLayout with
    | true =>
      rw [visible_cons_of_layout ts layout] at h
      exact ih hp h
    | false =>
      rw [visible_cons ts layout] at h
      apply ih
      · exact h t List.mem_cons_self
      · intro u hu
        exact h u (List.mem_cons_of_mem t hu)

namespace InOrder

variable {u : Token} {taken : List Token}

/-- What is read from some tokens encloses each of them. -/
private theorem encloses (h : InOrder (u :: taken)) (shown : u.kind.isLayout = false) {t : Token}
    (ht : t ∈ visible (u :: taken)) :
    Span.encloses ⟨u.span.start, lastEndAfter u.span.stop taken⟩ t.span = true := by
  have first := h.after_head shown
  obtain ⟨reaches, within⟩ := h.tail.le_lastEndAfter first
  have room := h.nonempty u (mem_visible.2 ⟨List.mem_cons_self, shown⟩)
  simp only [Span.encloses, Bool.and_eq_true, decide_eq_true_eq]
  rw [visible_cons taken shown] at ht
  rcases List.mem_cons.1 ht with rfl | ht
  · exact ⟨Nat.le_refl _, reaches⟩
  · have := first t ht
    exact ⟨by omega, within t ht⟩

/-- What is read from some tokens encloses nothing behind them. -/
private theorem not_encloses_of_after (shown : u.kind.isLayout = false) {s : Span}
    (room : s.start.offset < s.stop.offset)
    (after : ∀ v ∈ visible (u :: taken), v.span.stop.offset ≤ s.start.offset) :
    Span.encloses ⟨u.span.start, lastEndAfter u.span.stop taken⟩ s = false := by
  rw [visible_cons taken shown] at after
  have ends : (lastEndAfter u.span.stop taken).offset ≤ s.start.offset :=
    lastEndAfter_le (after u List.mem_cons_self) fun v hv ↦ after v (List.mem_cons_of_mem u hv)
  simp only [Span.encloses, Bool.and_eq_false_iff, decide_eq_false_iff_not]
  omega

end InOrder

namespace Spread

variable {ts : List Token} {ss : List Statement}

/-- No statement starts before the tokens that it stands on. -/
theorem le_start (h : Spread ts ss) {n : Nat} (hn : ∀ t ∈ visible ts, n ≤ t.span.start.offset) :
    ∀ s ∈ ss, n ≤ s.span.start.offset := by
  induction h with
  | nil => simp
  | @between t ts ss outside others ih =>
    apply ih
    intro u hu
    obtain ⟨hu, layout⟩ := mem_visible.1 hu
    exact hn u (mem_visible.2 ⟨List.mem_cons_of_mem t hu, layout⟩)
  | @statement t taken ts s ss visible span others ih =>
    intro r hr
    rcases List.mem_cons.1 hr with rfl | hr
    · rw [span]
      exact hn t (mem_visible.2 ⟨List.mem_cons_self, visible⟩)
    · refine ih ?_ r hr
      intro u hu
      obtain ⟨hu, layout⟩ := mem_visible.1 hu
      exact hn u (mem_visible.2 ⟨List.mem_cons_of_mem t (List.mem_append_right taken hu), layout⟩)

/-- A token that is no arrow lies within exactly one of the statements that stand on the tokens. -/
theorem countP_encloses (h : Spread ts ss) (order : InOrder ts) {t : Token} (ht : t ∈ visible ts) :
    t.kind = .symbol .arrow ∨ ss.countP (·.span.encloses t.span) = 1 := by
  induction h with
  | nil => contradiction
  | @between u ts ss outside others ih =>
    obtain ⟨ht, layout⟩ := mem_visible.1 ht
    rcases List.mem_cons.1 ht with rfl | ht
    · left
      exact outside.resolve_left (by simp [layout])
    · exact ih order.tail (mem_visible.2 ⟨ht, layout⟩)
  | @statement u taken ts s ss shown span others ih =>
    have own : InOrder (u :: taken) := order.sublist (by simp)
    have later : InOrder ts := order.sublist (by
      rw [← List.cons_append]
      exact List.sublist_append_right _ _)
    have parts : InOrder (u :: taken ++ ts) := order
    have room : t.span.start.offset < t.span.stop.offset := order.nonempty t ht
    rw [List.countP_cons, span]
    rw [← List.cons_append, visible_append, List.mem_append] at ht
    rcases ht with mine | after
    · -- the token is one that this statement is read from
      right
      have outside : ss.countP (·.span.encloses t.span) = 0 := by
        apply List.countP_eq_zero.2
        intro r hr
        have := others.le_start (parts.after_append t mine) r hr
        simp only [Span.encloses, Bool.and_eq_true, decide_eq_true_eq]
        omega
      rw [outside, if_pos (own.encloses shown mine)]
    · -- the token comes after this statement
      have before := InOrder.not_encloses_of_after shown (s := t.span) room fun v hv ↦
        parts.after_append v hv t after
      rw [if_neg (by simp [before])]
      exact ih later after

end Spread

/-! ## The tokens of a text -/

/-- The visible tokens of a source text make it up. -/
theorem partition_tokens (source : String) :
    Partition source.toList (visible (tokenize source).tokens) := by
  rw [tokenize, visible_tokenizeChars]
  exact (covers_lexemes .start source.toList).partition

/-- The tokens of a source text stand in order. -/
theorem inOrder_tokenize (source : String) : InOrder (tokenize source).tokens :=
  have partition := partition_tokens source
  ⟨partition.nonempty, partition.ordered⟩

/-- The tokens that the grammar reads are some of the tokens, in order. -/
theorem withoutTrailingComments_sublist (k : Option TokenKind) (ts : List Token) :
    (withoutTrailingComments k ts).Sublist ts := by
  induction ts generalizing k with
  | nil => exact List.Sublist.refl []
  | cons t ts ih =>
    rw [withoutTrailingComments]
    split
    · exact (ih k).cons t
    · exact (ih _).cons_cons t

/-- Only comments are set aside. -/
theorem mem_withoutTrailingComments {t : Token} {ts : List Token} (k : Option TokenKind)
    (ht : t ∈ ts) (hc : t.kind.isComment = false) : t ∈ withoutTrailingComments k ts := by
  induction ts generalizing k with
  | nil => contradiction
  | cons u ts ih =>
    rw [withoutTrailingComments]
    split
    · next trailing =>
      rcases List.mem_cons.1 ht with rfl | ht
      · simp [hc] at trailing
      · exact ih k ht
    · rcases List.mem_cons.1 ht with rfl | ht
      · exact List.mem_cons_self
      · exact List.mem_cons_of_mem u (ih _ ht)

/-- Every comment among tokens in their order is recorded once. -/
theorem count_commentsOf {ts : List Token} (order : InOrder ts) {t : Token} (ht : t ∈ ts)
    {text : String} (hk : t.kind = .comment text) :
    (commentsOf ts).count ⟨text, t.span⟩ = 1 := by
  rw [commentsOf, (List.mergeSort_perm _ _).count_eq, List.Nodup.count, if_pos]
  · apply List.mem_filterMap.2
    obtain ⟨kind, span⟩ := t
    obtain rfl : kind = .comment text := hk
    exact ⟨_, ht, rfl⟩
  · have ordered := List.pairwise_filter.1 order.ordered
    apply List.pairwise_filterMap.2
    refine ordered.imp_of_mem ?_
    intro a b ha hb later x hx y hy
    split at hx
    · split at hy
      · rintro rfl
        cases hx
        cases hy
        have room := order.nonempty _ (mem_visible.2 ⟨ha, rfl⟩)
        have next := later rfl rfl
        dsimp only at room next
        omega
      · contradiction
    · contradiction

/-- Of a text that is read without errors nothing is left out: every token lies within one statement
outside of blocks, except for layout, comments and the arrows between sessions, and every comment
is recorded once. -/
theorem statements_cover (source : String) (h : (parse source).hasErrors = false) :
    (∀ t ∈ (tokenize source).tokens, t.kind.isLayout = false → t.kind.isComment = false →
      t.kind = .symbol .arrow
        ∨ (parse source).program.statements.countP (·.span.encloses t.span) = 1)
    ∧ ∀ t ∈ (tokenize source).tokens, ∀ text, t.kind = .comment text →
      (parse source).program.comments.count ⟨text, t.span⟩ = 1 := by
  have clean : (parse source).errors = [] ∧ (parse source).lexErrors = [] := by
    simpa [Parsed.hasErrors] using h
  constructor
  · intro t ht layout comment
    have spread : Spread (readTokens source) (parse source).program.statements := by
      have rest : (startOf source).rest = readTokens source := by rw [startOf_eq]
      have noErrors := clean.1
      rw [parse_errors] at noErrors
      rw [parse_statements, ← rest]
      exact readAll_spreads (starts_startOf source clean.2).toStands (Nat.le_succ _) noErrors
    have order : InOrder (readTokens source) := by
      have all := inOrder_tokenize source
      rw [tokenize, tokens_tokenizeChars] at all
      exact (all.sublist (List.sublist_append_left _ _)).sublist
        (withoutTrailingComments_sublist _ _)
    have mem : t ∈ readTokens source := by
      rw [tokenize, tokens_tokenizeChars, List.mem_append, List.mem_singleton] at ht
      rcases ht with ht | rfl
      · exact mem_withoutTrailingComments none ht comment
      · contradiction
    exact spread.countP_encloses order (mem_visible.2 ⟨mem, layout⟩)
  · intro t ht text hk
    exact count_commentsOf (inOrder_tokenize source) ht hk

/-- A binding with a comment behind it, and two sessions with an arrow in between. -/
theorem statements_cover_sequence :
    let source := "let a = 1 # one\nsession \"x\" -> session \"y\"\n"
    (parse source).hasErrors = false
      ∧ ∀ t ∈ (tokenize source).tokens, t.kind.isLayout = false → t.kind.isComment = false →
        t.kind = .symbol .arrow
          ∨ (parse source).program.statements.countP (·.span.encloses t.span) = 1 := by
  have clean : (parse "let a = 1 # one\nsession \"x\" -> session \"y\"\n").hasErrors = false := by
    decide +kernel
  exact ⟨clean, (statements_cover _ clean).1⟩

end ProseLang
