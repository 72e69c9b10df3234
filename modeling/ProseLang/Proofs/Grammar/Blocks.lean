import ProseLang.Proofs.Grammar.Surroundings

/-!
# Blocks within surroundings

What is nested in a construct is read the same within surroundings (`Agrees`), so a block is, with
everything that fails in it: a block closes before the stream ends, so there is a place to go on
after each of its statements.
-/

namespace ProseLang

open Cursor (failedLength)

/-- How many tokens recovery skips does not depend on their places. -/
theorem failedLength_bare (depth : Nat) (ts : List Token) :
    failedLength depth (recast .bare ts) = failedLength depth ts := by
  induction ts generalizing depth with
  | nil => rfl
  | cons t ts ih =>
    have head : ((recast .bare ts).head?.map Token.kind == some .indent)
        = (ts.head?.map Token.kind == some .indent) := by
      cases ts with
      | nil => rfl
      | cons u ts =>
        rw [Bool.eq_iff_iff]
        simp [bare_eq_iff]
    rw [recast_cons]
    unfold failedLength
    simp only [kind_recast, ih, head]
    cases t.kind <;> rfl

/-- After the stream comes a comment or the start of a statement. -/
theorem Surroundings.head_after (e : Surroundings) {t : Token} (h : t ∈ e.after.head?) :
    t.kind.isComment = true ∨ t.kind.startsStatement = true := by
  cases ha : e.after with
  | nil => simp [ha] at h
  | cons u us =>
    obtain rfl : u = t := by simpa [ha] using h
    cases hu : u.kind.isComment with
    | true => exact .inl rfl
    | false => exact .inr (e.after_starts u (by simp [ha, hu]))

namespace Cursor

variable {c d : Cursor} {L n : Nat} {e : Surroundings} {f f' : ParseError}

/-- Skipped tokens leave the end of the stream. -/
@[simp] theorem final_skip (c : Cursor) (k : Nat) : (c.skip k).final = c.final := by
  induction k generalizing c with
  | zero => rfl
  | succ k ih =>
    rw [skip, ih]
    unfold advance
    split <;> rfl

/-- Skipped tokens leave the errors about invalid tokens. -/
@[simp] theorem rejected_skip (c : Cursor) (k : Nat) : (c.skip k).rejected = c.rejected := by
  induction k generalizing c with
  | zero => rfl
  | succ k ih =>
    rw [skip, ih]
    unfold advance
    split <;> rfl

/-- A cursor that skips tokens stands where the blocks that they leave open close. -/
theorem Stands.skip {k : Nat} (h : c.Stands L) (opens : openBlocks (c.rest.drop k) = L) :
    (c.skip k).Stands L where
  laid := by
    rw [rest_skip]
    exact h.laid.suffix (List.drop_suffix k c.rest)
  final := by rw [final_skip]; exact h.final
  rejected := by rw [rejected_skip]; exact h.rejected
  opens := by rwa [rest_skip]

/-- An error on record moves no cursor. -/
theorem Stands.report (h : c.Stands L) : (c.report f).Stands L where
  laid := by rw [rest_report]; exact h.laid
  final := by
    unfold Cursor.report
    split <;> exact h.final
  rejected := by
    unfold Cursor.report
    split <;> exact h.rejected
  opens := by rw [rest_report]; exact h.opens

/-- Going on after an error leaves the blocks around it. -/
theorem Stands.recover (h : c.Stands L) : (c.recover f).Stands L := by
  refine h.report.skip ?_
  rw [rest_report]
  have := openBlocks_drop_failedLength h.laid (Nat.zero_le _)
  rw [← h.opens]
  exact this

private theorem synchronize_within (h : c.Stands L)
    (hlate : onlyComments c.rest = true → e.after = []) :
    (c.within e).synchronize = c.synchronize.within e := by
  have same : failedLength 0 (c.within e).rest = failedLength 0 c.rest := by
    rw [rest_within, ← recast_append, failedLength_bare]
    by_cases only : onlyComments c.rest = true
    · rw [hlate only, List.append_nil]
    · refine failedLength_append h.laid (Nat.zero_le _) (fun h' ↦ absurd h' only) ?_
      cases ha : e.after.head? with
      | none => simp
      | some t =>
        rcases e.head_after ha with ht | ht <;> intro hk <;>
          simp only [Option.map_some, Option.some.injEq] at hk <;>
          simp [hk, TokenKind.isComment, TokenKind.startsStatement] at ht
  rw [synchronize, same]
  exact skip_within (failedLength_le _ _)

/-- Going on after an error is the same within surroundings if there is a token to go on at, or
nothing after the stream. -/
theorem recover_within (h : c.Stands L) (hlate : onlyComments c.rest = true → e.after = [])
    (ht : e.Tells c f f') : (c.within e).recover f' = (c.recover f).within e := by
  have told : f' = recast .bare f := ht <| by
    by_cases hnil : c.rest = []
    · exact .inr (hlate (by rw [hnil]; rfl))
    · exact .inl hnil
  rw [told, recover, report_within h.rejected, recover]
  exact synchronize_within h.report (by rwa [rest_report])

/-- After an error a token has been left out, unless a block ends where the parser started. -/
theorem length_recover_lt {t : Token} {ts : List Token} (h : c.Follows d)
    (hc : c.rest = t :: ts) (ht : t.kind ≠ .dedent) :
    (d.recover f).rest.length < c.rest.length := by
  rw [recover, synchronize, rest_skip, rest_report, List.length_drop]
  have hle := h.length_le
  by_cases hlt : d.rest.length < c.rest.length
  · omega
  · have same : d.rest = c.rest := h.suffix.eq_of_length (by omega)
    have := failedLength_pos ts ht
    rw [same, hc, List.length_cons]
    omega

/-- Within a block there is more ahead than comments. -/
theorem Stands.not_onlyComments (h : c.Stands (L + 1)) : onlyComments c.rest = false := by
  cases hc : onlyComments c.rest with
  | false => rfl
  | true =>
    have := h.opens
    rw [openBlocks_of_onlyComments hc] at this
    omega

private theorem Stands.ne_nil (h : c.Stands (L + 1)) : c.rest ≠ [] := by
  intro hnil
  have := h.not_onlyComments
  simp [hnil, onlyComments] at this

/-! ## Moves -/

private theorem startsPlainly_drop_takeWhile {ts : List Token} (h : onlyComments ts = false) :
    startsPlainly (ts.drop (ts.takeWhile (·.kind.isComment)).length) = true := by
  induction ts with
  | nil => simp [onlyComments] at h
  | cons t ts ih =>
    cases ht : t.kind.isComment with
    | false => simp [startsPlainly, ht]
    | true =>
      rw [List.takeWhile_cons, ht, if_pos rfl]
      exact ih (by simpa [onlyComments, ht] using h)

private theorem takeWhile_rest_within {p : Token → Bool} (hp : ∀ t, p (recast .bare t) = p t)
    (h : (∃ t ∈ c.rest, p t = false) ∨ ∀ t ∈ e.after.head?, p t = false) :
    ((c.within e).rest.takeWhile p).length = (c.rest.takeWhile p).length := by
  have same : p ∘ (recast .bare) = p := funext hp
  have list (ts : List Token) : recast .bare ts = ts.map (recast .bare) := rfl
  rw [rest_within, ← recast_append, list, List.takeWhile_map, List.length_map, same,
    List.takeWhile_append]
  split
  · next all =>
    rcases h with ⟨t, ht, hpt⟩ | h
    · have hall : c.rest.takeWhile p = c.rest :=
        (List.takeWhile_prefix p).eq_of_length all
      have hp := List.all_takeWhile (l := c.rest) (p := p)
      rw [hall] at hp
      have := List.all_eq_true.1 hp t ht
      simp [hpt] at this
    · cases ha : e.after with
      | nil => simp [all]
      | cons u us =>
        have := h u (by simp [ha])
        simp [this, all]
  · rfl

/-- Past ends of lines a cursor stands as it did. -/
theorem Stands.skipNewlines (h : c.Stands L) : c.skipNewlines.Stands L := by
  refine Stands.skip h ?_
  rw [openBlocks_drop_takeWhile c.rest fun t ht ↦ ?_, h.opens]
  simp [of_decide_eq_true ht]

private theorem Stands.skipComments (h : c.Stands L) : c.skipComments.Stands L := by
  refine Stands.skip h ?_
  rw [openBlocks_drop_takeWhile c.rest fun t ht ↦ ?_, h.opens]
  cases hk : t.kind <;> simp_all [TokenKind.isComment]

/-- The first token behind comments is the first that is no comment. -/
theorem head?_drop_comments (ts : List Token) :
    (ts.drop (ts.takeWhile (·.kind.isComment)).length).head? = ts.find? (!·.kind.isComment) := by
  induction ts with
  | nil => rfl
  | cons t ts ih =>
    rw [List.takeWhile_cons, List.find?_cons]
    cases t.kind.isComment with
    | false => rfl
    | true => exact ih

/-- Past comments a cursor is at a token, if there is more ahead than comments. -/
theorem Stands.live_skipComments (h : c.Stands L) (hn : c.rest.length ≤ n)
    (hc : onlyComments c.rest = false) : c.skipComments.Live L n :=
  { h.skipComments with
    length_le := Nat.le_trans (Follows.skip c _).length_le hn
    starts := by
      rw [Cursor.skipComments, rest_skip]
      exact startsPlainly_drop_takeWhile hc }

/-- What is next past comments is current once they are skipped. -/
theorem current_skipComments {kind : TokenKind} (h : c.comesNext kind = true) :
    c.skipComments.current.kind = kind ∧ onlyComments c.rest = false := by
  unfold comesNext at h
  cases hf : c.rest.find? (!·.kind.isComment) with
  | none => simp [hf] at h
  | some t =>
    have hk : t.kind = kind := by simpa [hf] using h
    have more : onlyComments c.rest = false := by
      have := List.find?_some hf
      have mem := List.mem_of_find?_eq_some hf
      simp only [onlyComments, List.all_eq_false]
      exact ⟨t, mem, by simpa using this⟩
    refine ⟨?_, more⟩
    rw [← head?_drop_comments] at hf
    rw [current, skipComments, rest_skip, List.headD_eq_head?_getD, hf]
    exact hk

/-- Ends of lines are skipped in the same way within surroundings. -/
theorem skipNewlines_within : (c.within e).skipNewlines = c.skipNewlines.within e := by
  have same := takeWhile_rest_within (c := c) (e := e) (p := fun t ↦ decide (t.kind = .newline))
    (fun t ↦ by simp [bare_eq_iff]) (.inr fun t ht ↦ by
      rcases e.head_after ht with h | h <;> cases hk : t.kind <;>
        simp_all [TokenKind.isComment, TokenKind.startsStatement])
  rw [skipNewlines, same]
  exact skip_within (List.takeWhile_prefix _).length_le

/-- Comments are skipped in the same way within surroundings, if there is more ahead of them. -/
theorem skipComments_within (h : onlyComments c.rest = false) :
    (c.within e).skipComments = c.skipComments.within e := by
  have same := takeWhile_rest_within (c := c) (e := e) (p := fun t ↦ t.kind.isComment)
    (fun t ↦ by simp) (.inl (by simpa [onlyComments] using h))
  rw [skipComments, same]
  exact skip_within (List.takeWhile_prefix _).length_le

/-- A look past comments finds the same word within surroundings, unless it starts statements. -/
theorem comesNext_within {word : Keyword} (hw : (TokenKind.keyword word).startsStatement = false) :
    (c.within e).comesNext (.keyword word) = c.comesNext (.keyword word) := by
  have find (ts : List Token) : (recast .bare ts).find? (!·.kind.isComment)
      = (ts.find? (!·.kind.isComment)).map (recast .bare) := by
    change (ts.map (recast .bare)).find? _ = _
    rw [List.find?_map]
    congr 2
    funext t
    simp
  have kind (t : Token) : decide (recast .bare t.kind = .keyword word)
      = decide (t.kind = .keyword word) := by
    simp [bare_eq_iff]
  rw [comesNext, comesNext, rest_within, ← recast_append, find, List.find?_append]
  cases hc : c.rest.find? (!·.kind.isComment) with
  | some t => simp [kind]
  | none =>
    cases ha : e.after.find? (!·.kind.isComment) with
    | none => rfl
    | some t =>
      have starts := e.after_starts t ha
      have : t.kind ≠ .keyword word := fun hk ↦ by simp [hk, hw] at starts
      simp [kind, this]

/-- A block starts in the stream if it does within surroundings. -/
theorem atBlock_within (h : c.Stands L) : (c.within e).atBlock = c.atBlock := by
  have after {kind : TokenKind} (hk : kind = .newline ∨ kind = .indent) :
      ((recast .bare e.after).headD ⟨.endOfFile, .nowhere⟩).kind ≠ kind := by
    cases ha : e.after with
    | nil => rcases hk with rfl | rfl <;> simp
    | cons u us =>
      have := e.head_after (t := u) (by simp [ha])
      rcases hk with rfl | rfl <;> cases hu : u.kind <;>
        simp_all [TokenKind.isComment, TokenKind.startsStatement, bare_eq_iff]
  rcases hc : c.rest with _ | ⟨t, _ | ⟨u, us⟩⟩
  · have := after (.inl rfl)
    simp_all [atBlock, current, within, h.final]
  · have := after (.inr rfl)
    simp_all [atBlock, next, within, h.final]
  · simp [atBlock, current, next, hc, bare_eq_iff]

end Cursor

/-! ## Statements of a block -/

/-- Whether what cannot fail does on the stream alone what another does within surroundings. -/
abbrev Runs {α : Type} [Recastable α] (e : Surroundings) (c : Cursor) (R : α → Cursor → Prop)
    (m m' : StateM Cursor α) : Prop :=
  Mirrors e c (fun d x x' ↦ x' = recast .bare x ∧ R x d) m m'

namespace Parser

variable {α : Type} [Recastable α] {e : Surroundings} {L n : Nat} {c d : Cursor}

omit [Recastable α] in
private theorem lift_apply {m : StateM Cursor α} {x : α} (h : m c = (x, d)) :
    (liftM m : Parser α) c = (.ok x, d) := by
  change (Except.ok (m c).1, (m c).2) = _
  rw [h]

/-- A step that does the same within surroundings, as a parser. -/
theorem runs_reads {R : α → Cursor → Prop} {m m' : StateM Cursor α} (h : Runs e c R m m') :
    Reads e L c R (liftM m) (liftM m') := by
  obtain ⟨here, there, follows, rfl, hR⟩ := h
  exact ⟨lift_apply here, lift_apply there, follows, .ok hR⟩

/-- What goes on after some values were gathered, with an error or without one. -/
theorem gathered_reads {α β : Type} [Recastable (List α)] [Recastable β] {J : Cursor → Prop}
    {S : β → Cursor → Prop} {m m' : StateM Cursor (List α × Option ParseError)}
    {k k' : List α × Option ParseError → Parser β} (h : Gathers e L c J m m')
    (hall : ∀ xs d, J d → Reads e L d S (k (xs, none)) (k' (recast .bare xs, none)))
    (hsome : ∀ xs f f' d, d.Stands L → e.Tells d f f' →
      Reads e L d S (k (xs, some f)) (k' (recast .bare xs, some f'))) :
    Reads e L c S (liftM m >>= k) (liftM m' >>= k') := by
  obtain @⟨_, _, d, here, there, follows, same⟩ := h
  have run := bind_apply (k := k) (lift_apply here)
  have run' := bind_apply (k := k') (lift_apply there)
  cases same with
  | all hJ =>
    obtain ⟨here', there', follows', same⟩ := hall _ d hJ
    exact ⟨run.trans here', run'.trans there', follows.trans follows', same⟩
  | some stands tells =>
    obtain ⟨here', there', follows', same⟩ := hsome _ _ _ d stands tells
    exact ⟨run.trans here', run'.trans there', follows.trans follows', same⟩

omit [Recastable α] in
/-- A parser that recovers gives what it gives without errors. -/
theorem recovering_ok {p : Parser α} {x : α} (h : p c = (.ok x, d)) :
    recovering p c = (some x, d) :=
  state_bind (p := p.run) h

omit [Recastable α] in
/-- A parser that recovers puts an error on record and goes on behind it. -/
theorem recovering_error {p : Parser α} {f : ParseError} (h : p c = (.error f, d)) :
    recovering p c = (none, d.recover f) :=
  state_bind (p := p.run) h

private theorem recovering_runs {p p' : Parser α} {R : α → Cursor → Prop} (h : Reads e L c R p p')
    (hR : ∀ x d, R x d → d.Stands L)
    (hlate : ∀ f d, p c = (.error f, d) → onlyComments d.rest = true → e.after = []) :
    Runs e c (fun x d ↦ d.Stands L ∧ ∀ y ∈ x, R y d) (recovering p) (recovering p') := by
  obtain ⟨here, there, follows, same⟩ := h
  cases same with
  | ok hx =>
    exact ⟨recovering_ok here, recovering_ok there, follows, rfl, hR _ _ hx, by simpa using hx⟩
  | error stands tells =>
    refine ⟨recovering_error here, ?_, follows.trans (.recover _ _), rfl, stands.recover, by simp⟩
    rw [recovering_error there, Cursor.recover_within stands (hlate _ _ here) tells]
    rfl

/-- In a block, what fails leaves out a token. -/
theorem recovering_runs_in_block {p p' : Parser α} {R : α → Cursor → Prop} {t : Token}
    {ts : List Token} (h : Reads e (L + 1) c R p p') (hR : ∀ x d, R x d → d.Stands (L + 1))
    (hc : c.rest = t :: ts) (ht : t.kind ≠ .dedent) :
    Runs e c (fun x d ↦ d.Stands (L + 1) ∧ (∀ y ∈ x, R y d)
        ∧ (x = none → d.rest.length < c.rest.length)) (recovering p) (recovering p') := by
  obtain ⟨here, there, follows, same⟩ := h
  cases same with
  | ok hx =>
    exact ⟨recovering_ok here, recovering_ok there, follows, rfl, hR _ _ hx,
      by simpa using hx, nofun⟩
  | error stands tells =>
    refine ⟨recovering_error here, ?_, follows.trans (.recover _ _), rfl, stands.recover, by simp,
      fun _ ↦ Cursor.length_recover_lt follows hc ht⟩
    rw [recovering_error there, Cursor.recover_within stands (fun only ↦ ?_) tells]
    · rfl
    · rw [stands.not_onlyComments] at only
      contradiction

/-- After a token that ends statements, nothing more has to end one. -/
theorem endStatement_apply_of_ended (h : c.previous.any TokenKind.endsStatement = true) :
    endStatement c = (.ok (), c) := by
  have run : endStatement c = _ := bind_apply (p := cursor) (d := c) rfl
  rw [run, ExceptT.bindCont]
  cases hp : c.previous with
  | none => simp [hp] at h
  | some k => cases k <;> simp_all [TokenKind.endsStatement] <;> rfl

/-- The end of a statement that does not end by itself. -/
def endOfLine : Parser Unit := do
  match ← peek with
  | .newline => let _ ← take
  | .dedent | .endOfFile => return
  | _ => unexpected "end of line"

/-- After any other token, the line or the block has to end. -/
theorem endStatement_apply_of_not_ended (h : c.previous.any TokenKind.endsStatement = false) :
    endStatement c = endOfLine c := by
  have run : endStatement c = _ := bind_apply (p := cursor) (d := c) rfl
  rw [run, ExceptT.bindCont]
  cases hp : c.previous with
  | none => rfl
  | some k => cases k <;> simp_all [TokenKind.endsStatement] <;> rfl

private theorem endOfLine_reads (h : c.Stands L) (hne : c.rest ≠ []) :
    Reads e L c (fun _ d ↦ d.Stands L) endOfLine endOfLine := by
  refine peek_reads hne ?_
  obtain ⟨t, ts, ht⟩ := List.exists_cons_of_ne_nil hne
  have htk : c.current.kind = t.kind := by simp [Cursor.current, ht]
  cases hk : c.current.kind with
  | newline =>
    refine (take_reads_of_ne_nil (R := fun _ d ↦ d.Stands L) hne ?_).bind fun _ _ hd ↦
      reads_pure rfl hd
    refine Cursor.Stands.skip (k := 1) h ?_
    rw [← h.opens, ht, openBlocks_cons_of_flat _ (by simp [← htk, hk]) (by simp [← htk, hk])]
    rfl
  | dedent | endOfFile => exact reads_pure rfl h
  | _ => exact unexpected_reads h

/-- A missing end of the line moves no cursor. -/
theorem endOfLine_error {f : ParseError} (h : endOfLine c = (.error f, d)) : d = c := by
  have run : endOfLine c = _ := bind_apply (p := peek) (d := c) rfl
  rw [run] at h
  cases hk : c.current.kind <;> rw [hk] at h <;> cases h <;> rfl

/-- After a statement, the end of the line is looked for on the stream alone. -/
theorem endStatement_runs (h : c.At L n) (hprevious : c.previous.isSome = true) :
    Runs e c (fun _ d ↦ d.Stands L) (recovering endStatement) (recovering endStatement) := by
  obtain ⟨k, hk⟩ := Option.isSome_iff_exists.1 hprevious
  have hk' : (c.within e).previous = some (recast .bare k) := by simp [Cursor.within, hk]
  have same : (recast .bare k).endsStatement = k.endsStatement := by cases k <;> rfl
  cases hends : k.endsStatement with
  | true =>
    have here := endStatement_apply_of_ended (c := c) (by simp [hk, hends])
    have there := endStatement_apply_of_ended (c := c.within e) (by simp [hk', same, hends])
    exact ⟨recovering_ok here, recovering_ok there, .refl c, rfl, h.toStands⟩
  | false =>
    have here := endStatement_apply_of_not_ended (c := c) (by simp [hk, hends])
    have there := endStatement_apply_of_not_ended (c := c.within e) (by simp [hk', same, hends])
    have more : onlyComments c.rest = false := by
      cases only : onlyComments c.rest with
      | false => rfl
      | true => simp [← h.ended only, hk, hends]
    have hne : c.rest ≠ [] := fun hnil ↦ by simp [hnil, onlyComments] at more
    have runs := recovering_runs ((endOfLine_reads h.toStands hne).congr here there)
      (fun _ _ hd ↦ hd) fun f d hd only ↦ by
        rw [here] at hd
        rw [endOfLine_error hd, more] at only
        contradiction
    exact runs.imp fun _ _ _ _ h ↦ ⟨h.1, h.2.1⟩

/-- Where reading goes on after a statement. -/
def afterStatement (error : Option ParseError) (c : Cursor) : Cursor :=
  match error with
  | some f => c.recover f
  | none => (recovering endStatement c).2

/-- What a round of reading statements does, by the token behind the ends of lines. -/
theorem statementRound_apply (statement : StatementParser) (inBlock : Bool) (c : Cursor) :
    statementRound statement inBlock c =
      match c.skipNewlines.current.kind with
      | .endOfFile => (([], .stop), c.skipNewlines)
      | .dedent =>
        if inBlock then (([], .stop), c.skipNewlines) else (([], .again), c.skipNewlines.advance)
      | .indent =>
        (([], .again), c.skipNewlines.recover ⟨.unexpectedIndent, c.skipNewlines.current.span⟩)
      | _ =>
        (((statement c.skipNewlines).1.1, .again),
          afterStatement (statement c.skipNewlines).1.2 (statement c.skipNewlines).2) := by
  have run : statementRound statement inBlock c = _ :=
    (state_bind (p := modify Cursor.skipNewlines) rfl).trans (state_bind (p := get) rfl)
  rw [run]
  dsimp only
  cases c.skipNewlines.current.kind with
  | endOfFile | indent => rfl
  | dedent => cases inBlock <;> rfl
  | _ =>
    rcases hs : statement c.skipNewlines with ⟨⟨read, _ | f⟩, a⟩ <;>
      exact (state_bind hs).trans rfl

/-- Whether a statement fails at a cursor and leaves it where only comments follow. -/
def FailsAtEnd (statement : StatementParser) (c : Cursor) : Prop :=
  ∃ f, (statement c).1.2 = some f ∧ onlyComments (statement c).2.rest = true

variable {st st' : StatementParser}

/-- Where reading goes on after a statement is the same within surroundings. -/
theorem afterStatement_reads
    (h : Gathers e L c (fun d ↦ d.At L n ∧ d.rest.length < c.rest.length) st st')
    (hlate : FailsAtEnd st c → e.after = []) :
    Mirrors e c (fun d read read' ↦ read' = recast .bare read ∧ d.Stands L
        ∧ ∀ t ts, c.rest = t :: ts → t.kind ≠ .dedent → d.rest.length < c.rest.length)
      (fun c ↦ ((st c).1.1, afterStatement (st c).1.2 (st c).2))
      (fun c ↦ ((st' c).1.1, afterStatement (st' c).1.2 (st' c).2)) := by
  obtain @⟨_, _, d, here, there, follows, same⟩ := h
  cases same with
  | @all read hd =>
    obtain @⟨_, _, a, here', there', follows', -, stands⟩ :=
      endStatement_runs (e := e) hd.1 (follows.previous (.inr hd.2))
    have run : ((st c).1.1, afterStatement (st c).1.2 (st c).2) = (read, a) := by
      rw [here, afterStatement, here']
    have run' : ((st' (c.within e)).1.1, afterStatement (st' (c.within e)).1.2 (st' (c.within e)).2)
        = (recast .bare read, a.within e) := by
      rw [there, afterStatement, there']
    exact ⟨run, run', follows.trans follows', rfl, stands,
      fun _ _ _ _ ↦ Nat.lt_of_le_of_lt follows'.length_le hd.2⟩
  | @some read f f' stands tells =>
    have recovers := Cursor.recover_within stands
      (fun only ↦ hlate ⟨f, by rw [here], by rw [here]; exact only⟩) tells
    have run : ((st c).1.1, afterStatement (st c).1.2 (st c).2) = (read, d.recover f) := by
      rw [here]
      rfl
    have run' : ((st' (c.within e)).1.1, afterStatement (st' (c.within e)).1.2 (st' (c.within e)).2)
        = (recast .bare read, (d.recover f).within e) := by
      rw [there, ← recovers]
      rfl
    exact ⟨run, run', follows.trans (.recover d f), rfl, stands.recover,
      fun _ _ ↦ Cursor.length_recover_lt follows⟩

/-- A round of reading statements is the same within surroundings if it is at a token, and does not
fail where only comments are left on the stream. -/
theorem statementRound_reads {inBlock : Bool} (h : c.Stands L) (hn : c.rest.length ≤ n)
    (hne : c.skipNewlines.rest ≠ []) (hblock : L ≠ 0 → inBlock = true)
    (hst : ∀ d, d.Stands L → d.rest ≠ [] → d.rest.length ≤ n →
      Gathers e L d (fun a ↦ a.At L n ∧ a.rest.length < d.rest.length) st st')
    (hlate : FailsAtEnd st c.skipNewlines → e.after = []) :
    ReadsRound e L c (fun d ↦ d.Stands L ∧ d.rest.length ≤ n)
      (fun d ↦ d.Stands L ∧ d.rest.length ≤ n ∧ d.current.kind = .dedent)
      (statementRound st inBlock) (statementRound st' inBlock) := by
  have skips : c.Follows c.skipNewlines := .skip c _
  have stands := h.skipNewlines
  have hn' := Nat.le_trans skips.length_le hn
  have round := statementRound_apply st inBlock c
  have round' := statementRound_apply st' inBlock (c.within e)
  rw [Cursor.skipNewlines_within, Cursor.current_within hne, kind_recast] at round'
  generalize c.skipNewlines = d at *
  obtain ⟨t, ts, ht⟩ := List.exists_cons_of_ne_nil hne
  have htk : d.current.kind = t.kind := by simp [Cursor.current, ht]
  have plain (hk : t.kind ≠ .dedent)
      (run : statementRound st inBlock c =
        (((st d).1.1, .again), afterStatement (st d).1.2 (st d).2))
      (run' : statementRound st' inBlock (c.within e)
        = (((st' (d.within e)).1.1, .again),
          afterStatement (st' (d.within e)).1.2 (st' (d.within e)).2)) :
      ReadsRound e L c (fun d ↦ d.Stands L ∧ d.rest.length ≤ n)
        (fun d ↦ d.Stands L ∧ d.rest.length ≤ n ∧ d.current.kind = .dedent)
        (statementRound st inBlock) (statementRound st' inBlock) := by
    obtain @⟨_, _, a, here, there, follows, rfl, stands', progress⟩ :=
      afterStatement_reads (hst d stands hne hn') hlate
    rw [Prod.mk.injEq] at here there
    rw [here.1, here.2] at run
    rw [there.1, there.2] at run'
    have := progress t ts ht hk
    have := skips.length_le
    exact ⟨run, run', skips.trans follows, .again ⟨stands', by omega⟩ (.inl (by omega))⟩
  cases hk : d.current.kind with
  | endOfFile =>
    have := stands.laid
    rw [ht] at this
    exact absurd (htk.symm.trans hk) this.1
  | dedent =>
    have hL : L ≠ 0 := by
      rw [← stands.opens, ht, openBlocks_cons_dedent _ (htk.symm.trans hk)]
      omega
    rw [hk, hblock hL] at round round'
    rw [hblock hL]
    exact ⟨round, round', skips, .stop ⟨stands, hn', hk⟩⟩
  | indent =>
    rw [hk] at round round'
    have more : onlyComments d.rest = false := by
      simp [ht, onlyComments, ← htk, hk, TokenKind.isComment]
    have recovers := Cursor.recover_within (e := e) stands
      (f := ⟨.unexpectedIndent, d.current.span⟩)
      (fun only ↦ by rw [more] at only; contradiction) fun _ ↦ rfl
    have := Cursor.length_recover_lt (f := ⟨.unexpectedIndent, d.current.span⟩) (.refl d) ht
      (by simp [← htk, hk])
    have := skips.length_le
    refine ⟨round, ?_, skips.trans (.recover d _),
      .again ⟨stands.recover, by omega⟩ (.inl (by omega))⟩
    rw [round', ← recovers]
    rfl
  | _ =>
    refine plain (by simp [← htk, hk]) ?_ ?_
    · simp [round, hk]
    · rw [round', hk]
      rfl

/-- Rounds of which none fails are left where they stop. -/
theorem rounds_runs {α : Type} [Recastable (List α)] [RecastsParts α]
    {round round' : StateM Cursor (List α × RoundEnd)} {I J : Cursor → Prop} (hI : I c)
    (step : ∀ d, I d → ReadsRound e L d I J round round')
    (never : ∀ d f, (round d).1.2 ≠ .fail f) :
    Runs e c (fun _ d ↦ J d) (fun c ↦ ((rounds round c).1.1, (rounds round c).2))
      (fun c ↦ ((rounds round' c).1.1, (rounds round' c).2)) := by
  have none (c : Cursor) : (rounds round c).1.2 = none := by
    fun_induction rounds round c with
    | case1 c xs d h => rfl
    | case2 c xs f d h => exact absurd (by rw [h]) (never c f)
    | case3 c xs d h hlt ys f a hd ih =>
      simpa [hd] using ih
    | case4 c xs d h hlt => rfl
  obtain @⟨_, _, d, here, there, follows, same⟩ := rounds_gathers hI step
  cases same with
  | @all xs hJ =>
    have run : ((rounds round c).1.1, (rounds round c).2) = (xs, d) := by rw [here]
    have run' : ((rounds round' (c.within e)).1.1, (rounds round' (c.within e)).2)
        = (recast .bare xs, d.within e) := by rw [there]
    exact ⟨run, run', follows, rfl, hJ⟩
  | some =>
    have := none c
    rw [here] at this
    contradiction

end Parser

/-- Whether what is nested in a construct is read the same within surroundings, as far as at most
`n` tokens of the stream are ahead. -/
structure Agrees (e : Surroundings) (n : Nat) (g g' : Nested) : Prop where
  value {L : Nat} {c : Cursor} (pipes : Bool) (h : c.Live L n) :
    Reads e L c (fun _ d ↦ d.At L n) (g.value pipes) (g'.value pipes)
  statement {L : Nat} {c : Cursor} (pipes : Bool) (h : c.Stands L) (hne : c.rest ≠ [])
    (hn : c.rest.length ≤ n) :
    Gathers e L c (fun d ↦ d.At L n ∧ d.rest.length < c.rest.length) (g.statement pipes)
      (g'.statement pipes)
  properties {L : Nat} {c : Cursor} (pipes : Bool) (h : c.At L n) (hb : c.atBlock = true) :
    Reads e L c (fun _ d ↦ d.At L n) (g.properties pipes) (g'.properties pipes)

/-- What is read the same before many tokens is read the same before fewer. -/
theorem Agrees.mono {e : Surroundings} {n m : Nat} {g g' : Nested} (hg : Agrees e n g g')
    (hm : m ≤ n) : Agrees e m g g' where
  value pipes h := (hg.value pipes (h.mono hm)).mono fun _ _ follows hd ↦
    { hd with length_le := Nat.le_trans follows.length_le h.length_le }
  statement pipes h hne hn := (hg.statement pipes h hne (Nat.le_trans hn hm)).imp fun
    | _, _, _, follows, .all hd =>
      .all ⟨{ hd.1 with length_le := Nat.le_trans follows.length_le hn }, hd.2⟩
    | _, _, _, _, .some stands tells => .some stands tells
  properties pipes h hb := (hg.properties pipes (h.mono hm) hb).mono fun _ _ follows hd ↦
    { hd with length_le := Nat.le_trans follows.length_le h.length_le }

namespace Parser

variable {α : Type} [Recastable α] {e : Surroundings} {L n : Nat} {c d : Cursor} {g g' : Nested}

/-- The tokens of a block that opens at a cursor. -/
theorem rest_of_atBlock (h : c.Stands L) (hb : c.atBlock = true) :
    ∃ newline indent, c.rest = newline :: indent :: c.advance.advance.rest
      ∧ newline.kind = .newline ∧ indent.kind = .indent := by
  rcases hc : c.rest with _ | ⟨t, _ | ⟨u, us⟩⟩
  · simp [Cursor.atBlock, h.current_of_nil hc] at hb
  · simp [Cursor.atBlock, Cursor.next, hc, h.final] at hb
  · simp only [Cursor.atBlock, Cursor.current, Cursor.next, hc, List.headD_cons, List.tail_cons,
      Bool.and_eq_true, decide_eq_true_eq] at hb
    exact ⟨t, u, by simp [Cursor.advance, hc], hb⟩

/-- A block starts with two tokens of the stream. -/
theorem ne_nil_of_atBlock (h : c.Stands L) (hb : c.atBlock = true) :
    c.rest ≠ [] ∧ c.advance.rest ≠ [] := by
  obtain ⟨t, u, hc, -⟩ := rest_of_atBlock h hb
  have : c.advance.rest = c.rest.drop 1 := Cursor.rest_skip c 1
  rw [this, hc]
  simp

/-- Behind the start of a block a cursor stands one level deeper. -/
theorem stands_in_block (h : c.Stands L) (hb : c.atBlock = true) :
    c.advance.advance.Stands (L + 1) := by
  obtain ⟨t, u, hc, ht, hu⟩ := rest_of_atBlock h hb
  have laid := h.laid
  rw [hc] at laid
  have opens := laid.2.2.2.2.1 hu
  refine { laid := laid.2.2.2.2.2.2, final := ?_, rejected := ?_, opens := ?_ }
  · exact (congrArg Token.kind (Cursor.final_skip c 2)).trans h.final
  · exact (Cursor.rejected_skip c 2).trans h.rejected
  · have := h.opens
    rw [hc, openBlocks_cons_of_flat _ (by simp [ht]) (by simp [ht]),
      openBlocks_cons_indent _ hu] at this
    omega

omit [Recastable α] in
/-- A token that is there is taken. -/
theorem expect_apply {kind : TokenKind} (h : c.current.kind = kind) :
    expect kind c = (.ok c.current, c.advance) := by
  have taken : take? kind c = (.ok (some c.current), c.advance) := by
    change (if decide (c.current.kind = kind) then some <$> take else return none : Parser _) c = _
    rw [h, if_pos (decide_eq_true rfl)]
    rfl
  exact (bind_apply taken).trans rfl

/-- The current token of the stream is taken in the same way. -/
theorem expect_reads_of_current {kind : TokenKind} (hne : c.rest ≠ [])
    (hk : c.current.kind = kind) (hstring : ∀ l, kind ≠ .string l) :
    Reads e L c (fun _ d ↦ d = c.advance) (expect kind) (expect kind) := by
  have there : expect kind (c.within e) = (.ok (recast .bare c.current), c.advance.within e) := by
    rw [expect_apply, Cursor.current_within hne, Cursor.advance_within hne]
    rw [Cursor.current_within hne, kind_recast, (bare_eq_iff hstring).2 hk]
  exact ⟨expect_apply hk, there, .advance c, .ok rfl⟩

/-- After the end of a block a statement may end. -/
theorem at_after_dedent (h : c.Stands (L + 1)) (hn : c.rest.length ≤ n)
    (hk : c.current.kind = .dedent) : c.advance.At L n := by
  obtain ⟨t, ts, ht⟩ := List.exists_cons_of_ne_nil h.ne_nil
  have htk : t.kind = .dedent := by simpa [Cursor.current, ht] using hk
  have advanced : c.advance.rest = ts ∧ c.advance.previous = some .dedent := by
    simp [Cursor.advance, ht, htk]
  have laid := h.laid
  have opens := h.opens
  rw [ht] at laid hn
  rw [ht, openBlocks_cons_dedent _ htk] at opens
  refine { laid := ?_, final := ?_, rejected := ?_, opens := ?_, length_le := ?_, ended := ?_ }
  · exact advanced.1 ▸ laid.2.2.2
  · exact (congrArg Token.kind (Cursor.final_skip c 1)).trans h.final
  · exact (Cursor.rejected_skip c 1).trans h.rejected
  · rw [advanced.1]
    omega
  · rw [advanced.1]
    exact Nat.le_of_succ_le hn
  · intro _
    rw [advanced.2]
    rfl

/-- The end of a block is the end of a statement. -/
theorem dedent_reads (h : c.Stands (L + 1)) (hn : c.rest.length ≤ n)
    (hk : c.current.kind = .dedent) :
    Reads e L c (fun _ d ↦ d.At L n) (expect .dedent) (expect .dedent) :=
  (expect_reads_of_current h.ne_nil hk (by simp)).mono fun _ _ _ hd ↦
    hd ▸ at_after_dedent h hn hk

private theorem statements_runs (hg : Agrees e n g g')
    (h : c.Stands (L + 1)) (hn : c.rest.length ≤ n) :
    Runs e c (fun _ d ↦ d.Stands (L + 1) ∧ d.rest.length ≤ n ∧ d.current.kind = .dedent)
      (statements (g.statement true) true) (statements (g'.statement true) true) := by
  refine rounds_runs (L := L + 1) (I := fun d ↦ d.Stands (L + 1) ∧ d.rest.length ≤ n) ⟨h, hn⟩
    (fun d ⟨hd, hdn⟩ ↦ ?_) fun d f ↦ ?_
  · have skips := hd.skipNewlines
    refine statementRound_reads hd hdn skips.ne_nil (fun _ ↦ rfl) (fun a ↦ hg.statement true) ?_
    rintro ⟨f, hf, only⟩
    have gathers := hg.statement true skips skips.ne_nil
      (Nat.le_trans (Cursor.Follows.skip d _).length_le hdn)
    obtain ⟨here, -, -, same⟩ := gathers
    rw [here] at hf only
    cases same with
    | all => contradiction
    | some stands =>
      rw [stands.not_onlyComments] at only
      contradiction
  · rw [statementRound_apply]
    cases d.skipNewlines.current.kind <;> simp

/-- A block is read the same within surroundings. -/
theorem indentedBody_reads (hg : Agrees e n g g') (h : c.At L n) (hb : c.atBlock = true) :
    Reads e L c (fun _ d ↦ d.At L n) (indentedBody g) (indentedBody g') := by
  obtain ⟨t, u, hc, ht, hu⟩ := rest_of_atBlock h.toStands hb
  have hlen := h.length_le
  rw [hc] at hlen
  simp only [List.length_cons] at hlen
  obtain ⟨hne, hne'⟩ := ne_nil_of_atBlock h.toStands hb
  refine (take_reads_of_ne_nil (R := fun _ d ↦ d = c.advance) hne rfl).bind ?_
  rintro _ _ rfl
  refine (take_reads_of_ne_nil (R := fun _ d ↦ d = c.advance.advance) hne' rfl).bind ?_
  rintro _ _ rfl
  refine (runs_reads (statements_runs hg (stands_in_block h.toStands hb) (by omega))).bind ?_
  rintro body d ⟨hd, hn, hk⟩
  exact (dedent_reads hd hn hk).bind fun _ _ ha ↦ reads_pure rfl ha

/-- An error about a missing block says the same. -/
theorem missingBlock_reads {R : α → Cursor → Prop} {construct : Construct} (h : c.Stands L) :
    Reads e L c R (missingBlock construct) (missingBlock construct) :=
  ⟨rfl, rfl, .refl c, .error h fun _ ↦ rfl⟩

private theorem blockBody_reads {construct : Construct} (hg : Agrees e n g g') (h : c.At L n) :
    Reads e L c (fun _ d ↦ d.At L n) (blockBody g construct) (blockBody g' construct) := by
  refine cursor_reads ?_
  rw [Cursor.atBlock_within h.toStands]
  split
  · next hb => exact indentedBody_reads hg h hb
  · exact missingBlock_reads h.toStands

/-- A body that may be left out is read the same. -/
theorem blockBody?_reads (hg : Agrees e n g g') (h : c.At L n) :
    Reads e L c (fun _ d ↦ d.At L n) (blockBody? g) (blockBody? g') := by
  refine cursor_reads ?_
  rw [Cursor.atBlock_within h.toStands]
  split
  · next hb => exact indentedBody_reads hg h hb
  · exact reads_pure rfl h

/-- A block is read the same. -/
theorem block_reads {construct : Construct} (hg : Agrees e n g g') (h : c.At L n) :
    Reads e L c (fun _ d ↦ d.At L n) (block g construct) (block g' construct) :=
  (symbol_reads (h.mono (Nat.le_succ n)) (.inr rfl)).bind fun _ _ hd ↦ blockBody_reads hg hd.at

end Parser

end ProseLang
