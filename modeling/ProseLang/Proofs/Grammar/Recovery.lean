import ProseLang.Proofs.Grammar.Statement

/-!
# Reading one stream after another

A stream that is followed by another one is read as it is alone, and the other one after it
(`rounds_within`), unless one of its statements fails where only comments are left
(`FailsLate`): going on after that statement then leaves out the start of what follows.
-/

namespace ProseLang

namespace Parser

variable {e : Surroundings} {n : Nat} {c d : Cursor} {g g' : Nested}

/-- Whether reading statements comes to one that fails where only comments are left. -/
inductive FailsLate (statement : StatementParser) : Cursor → Prop
  | here {c : Cursor} (hne : c.skipNewlines.rest ≠ []) (h : FailsAtEnd statement c.skipNewlines) :
    FailsLate statement c
  | later {c : Cursor} (again : (statementRound statement false c).1.2 = .again)
    (h : FailsLate statement (statementRound statement false c).2) : FailsLate statement c

instance (statement : StatementParser) (c : Cursor) : Decidable (FailsAtEnd statement c) :=
  decidable_of_iff ((statement c).1.2.isSome = true
    ∧ onlyComments (statement c).2.rest = true) <| by
    simp only [FailsAtEnd, Option.isSome_iff_exists, exists_and_right]

/-- Outside of blocks no block ends. -/
theorem current_ne_dedent (h : c.Stands 0) : c.current.kind ≠ .dedent := by
  intro hk
  cases hc : c.rest with
  | nil =>
    rw [h.current_of_nil hc] at hk
    contradiction
  | cons t ts =>
    have opens := h.opens
    have ht : t.kind = .dedent := by simpa [Cursor.current, hc] using hk
    rw [hc, openBlocks_cons_dedent _ ht] at opens
    contradiction

/-- At the end of the file a round stops. -/
theorem statementRound_at_end (statement : StatementParser) (h : c.final.kind = .endOfFile)
    (hnil : c.skipNewlines.rest = []) :
    statementRound statement false c = (([], .stop), c.skipNewlines) := by
  have hk : c.skipNewlines.current.kind = .endOfFile := by
    rw [Cursor.current, hnil]
    exact (congrArg Token.kind (Cursor.final_skip c _)).trans h
  rw [statementRound_apply, hk]

/-- At the end of the file no statement fails late. -/
theorem not_failsLate_at_end {statement : StatementParser} (h : c.final.kind = .endOfFile)
    (hnil : c.skipNewlines.rest = []) : ¬ FailsLate statement c := by
  rintro (⟨hne, -⟩ | ⟨again, -⟩)
  · exact hne hnil
  · rw [statementRound_at_end statement h hnil] at again
    cases again

/-- Reading does not fail late if it does not at the first statement, nor from there on. -/
theorem not_failsLate_of_first {statement : StatementParser}
    (first : ¬ FailsAtEnd statement c.skipNewlines)
    (next : ¬ FailsLate statement (statementRound statement false c).2) :
    ¬ FailsLate statement c := by
  rintro (⟨-, here⟩ | ⟨-, later⟩)
  · exact first here
  · exact next later

/-- Anywhere else a round reads a statement and goes on behind it. -/
theorem statementRound_at_statement (statement : StatementParser) (inBlock : Bool)
    (hend : c.skipNewlines.current.kind ≠ .endOfFile)
    (hdedent : c.skipNewlines.current.kind ≠ .dedent)
    (hindent : c.skipNewlines.current.kind ≠ .indent) :
    statementRound statement inBlock c =
      (((statement c.skipNewlines).1.1, .again),
        afterStatement (statement c.skipNewlines).1.2 (statement c.skipNewlines).2) := by
  rw [statementRound_apply]
  split <;> first | contradiction | rfl

private theorem rounds_at_end {statement : StatementParser} (h : c.final.kind = .endOfFile)
    (hnil : c.rest = []) : (rounds (statementRound statement false) c).1.1 = [] := by
  have skipped : c.skipNewlines.rest = [] := by
    rw [Cursor.skipNewlines, Cursor.rest_skip, hnil]
    rfl
  rw [rounds_stop (statementRound_at_end _ h skipped)]

/-- A round of reading statements never fails, as errors are recovered from. -/
theorem statementRound_ne_fail (statement : StatementParser) (inBlock : Bool) (c : Cursor)
    (f : ParseError) : (statementRound statement inBlock c).1.2 ≠ .fail f := by
  rw [statementRound_apply]
  split <;> try split
  all_goals simp

/-- A round outside of blocks that is at a token and does not fail late. -/
theorem round_within (hg : Agrees e n g g') (h : c.Stands 0) (hn : c.rest.length ≤ n)
    (hne : c.skipNewlines.rest ≠ []) (hlate : FailsAtEnd (g.statement true) c.skipNewlines →
      e.after = []) :
    ∃ read d, statementRound (g.statement true) false c = ((read, .again), d)
      ∧ statementRound (g'.statement true) false (c.within e) =
      ((recast .bare read, .again), d.within e)
      ∧ c.Follows d ∧ d.Stands 0 ∧ d.rest.length < c.rest.length := by
  obtain @⟨_, _, d, here, there, follows, same⟩ :=
    statementRound_reads h hn hne (fun h ↦ absurd rfl h) (fun _ ↦ hg.statement true) hlate
  cases same with
  | @again read hd progress =>
    refine ⟨read, d, here, there, follows, hd.1, progress.resolve_right ?_⟩
    exact fun hd ↦ current_ne_dedent hd.1 hd.2.2
  | stop hd => exact absurd hd.2.2 (current_ne_dedent hd.1)
  | @fail read f f' =>
    have := statementRound_ne_fail (g.statement true) false c f
    rw [here] at this
    contradiction

/-- A stream that does not fail late is read as it is alone, and then what follows. -/
theorem rounds_within (hg : Agrees e n g g') (h : c.Stands 0) (hn : c.rest.length ≤ n)
    (hlate : FailsLate (g.statement true) c → e.after = []) :
    ∃ read a, a.Stands 0 ∧ a.skipNewlines.rest = [] ∧ c.Follows a
      ∧ rounds (statementRound (g.statement true) false) c = ((read, none), a.skipNewlines)
      ∧ (rounds (statementRound (g'.statement true) false) (c.within e)).1.1
        = recast .bare read ++ (rounds (statementRound (g'.statement true) false) (a.within e)).1.1
      ∧ (rounds (statementRound (g'.statement true) false) (c.within e)).2
        = (rounds (statementRound (g'.statement true) false) (a.within e)).2 := by
  induction hc : c.rest.length using Nat.strongRecOn generalizing c with
  | ind k ih =>
    by_cases hnil : c.skipNewlines.rest = []
    · exact ⟨[], c, h, hnil, .refl c, rounds_stop (statementRound_at_end _ h.final hnil), rfl, rfl⟩
    · obtain ⟨read, d, here, there, follows, hd, shorter⟩ :=
        round_within hg h hn hnil fun h ↦ hlate (.here hnil h)
      obtain ⟨more, a, ha, hend, follows', run, read', cursor⟩ :=
        ih d.rest.length (hc ▸ shorter) hd (by omega)
          (fun late ↦ hlate (.later (by rw [here]) (by rw [here]; exact late))) rfl
      have shorter' := length_within_lt_iff (e := e).2 shorter
      refine ⟨read ++ more, a, ha, hend, follows.trans follows', ?_, ?_, ?_⟩
      · rw [rounds_again here shorter, run]
      · rw [rounds_again there shorter', read', recast_append, List.append_assoc]
      · rw [rounds_again there shorter', cursor]

/-- Where no statement may start there is an error right away. -/
theorem statement_of_not_starts (pipes : Bool) (hk : c.current.kind.startsStatement = false)
    (hc : c.current.kind.isComment = false) :
    ∃ f, statement g pipes c = (([], some f), c) := by
  have notSession : c.current.kind ≠ .keyword .session := by
    intro h
    simp [h, TokenKind.startsStatement] at hk
  have one : ∃ f, oneStatement g pipes c = (.error f, c) := by
    have run : oneStatement g pipes c = _ := bind_apply (p := peek) rfl
    rw [run]
    generalize c.current.kind = kind at hk hc
    cases kind with
    | comment | string | number | discretion | identifier => contradiction
    | keyword word => cases word <;> first | contradiction | exact ⟨_, rfl⟩
    | symbol mark => cases mark <;> first | contradiction | exact ⟨_, rfl⟩
    | _ => exact ⟨_, rfl⟩
  obtain ⟨f, hf⟩ := one
  exact ⟨f, by rw [statement, if_neg notSession, hf]⟩

/-- Before its end a stream has something else ahead. -/
theorem current_ne_endOfFile (h : c.Stands 0) (hne : c.rest ≠ []) :
    c.current.kind ≠ .endOfFile := by
  obtain ⟨t, ts, ht⟩ := List.exists_cons_of_ne_nil hne
  have laid := h.laid
  rw [ht] at laid
  simpa [Cursor.current, ht] using laid.1

private theorem rest_recover (c : Cursor) (f : ParseError) :
    (c.recover f).rest = c.rest.drop (Cursor.failedLength 0 c.rest) := by
  rw [Cursor.recover, Cursor.synchronize, Cursor.rest_skip, Cursor.rest_report]

/-- A round in which a statement fails late takes all of the stream and of what follows. -/
theorem round_of_failsAtEnd (hg : Agrees e n g g') (h : c.Stands 0) (hn : c.rest.length ≤ n)
    (hne : c.skipNewlines.rest ≠ []) (hindent : c.skipNewlines.current.kind ≠ .indent)
    (hafter : Cursor.failedLength 0 e.after = e.after.length)
    (late : FailsAtEnd (g.statement true) c.skipNewlines) :
    ∃ read d d', statementRound (g.statement true) false c = ((read, .again), d)
      ∧ statementRound (g'.statement true) false (c.within e) = ((recast .bare read, .again), d')
      ∧ d.rest = [] ∧ d'.rest = [] ∧ d.final.kind = .endOfFile ∧ d'.final.kind = .endOfFile := by
  have stands := h.skipNewlines
  have follows : c.Follows c.skipNewlines := .skip c _
  have within : (c.within e).skipNewlines = c.skipNewlines.within e := Cursor.skipNewlines_within
  have notEnd := current_ne_endOfFile stands hne
  have notDedent := current_ne_dedent stands
  have run := statementRound_at_statement (g.statement true) false notEnd notDedent hindent
  have run' := statementRound_at_statement (c := c.within e) (g'.statement true) false
  rw [within, Cursor.current_within hne, kind_recast] at run'
  replace run' := run' (mt (bare_eq_iff (by simp)).1 notEnd)
    (mt (bare_eq_iff (by simp)).1 notDedent) (mt (bare_eq_iff (by simp)).1 hindent)
  obtain ⟨f, hf, only⟩ := late
  obtain @⟨_, _, a, here, there, follows', same⟩ :=
    hg.statement true stands hne (Nat.le_trans follows.length_le hn)
  rw [here] at run hf only
  rw [there] at run'
  cases same with
  | all => contradiction
  | @some read f f' stands' =>
    refine ⟨read, a.recover f, (a.within e).recover f', run, run', ?_, ?_, ?_, ?_⟩
    · have := failedLength_append_of_onlyComments [] only
      rw [List.append_nil] at this
      rw [rest_recover, this]
      exact List.drop_length
    · rw [rest_recover, Cursor.rest_within, ← recast_append, failedLength_bare,
        failedLength_append_of_onlyComments e.after only, hafter]
      exact List.drop_eq_nil_of_le (by simp)
    · exact stands'.recover.final
    · rw [Cursor.recover, Cursor.synchronize, Cursor.final_skip]
      unfold Cursor.report
      split <;> rfl

private theorem upTo_statement_at_comment {depth : Nat} {text : String}
    (hk : c.current.kind = .comment text) :
    (Nested.upTo (depth + 1)).statement true c
      = (([.comment ⟨text, c.current.span⟩], none), c.advance) := by
  have one : oneStatement (.upTo depth) true c
      = (.ok (.comment ⟨text, c.current.span⟩), c.advance) := by
    have run : oneStatement (.upTo depth) true c = _ := bind_apply (p := peek) rfl
    rw [run, hk]
    rfl
  change statement (.upTo depth) true c = _
  rw [statement, if_neg (by rw [hk]; simp), one]

/-- A statement that fails late takes the start of what follows with it: no statement of it is
read if nothing in it ends before its own end. -/
theorem rounds_within_of_failsLate (hg : Agrees e n g g') (h : c.Stands 0) (hn : c.rest.length ≤ n)
    (hindent : ∀ d, d.rest ≠ [] → d.current.kind = .indent → ¬ FailsAtEnd (g.statement true) d)
    (hafter : Cursor.failedLength 0 e.after = e.after.length)
    (late : FailsLate (g.statement true) c) :
    (rounds (statementRound (g'.statement true) false) (c.within e)).1.1
      = recast .bare (rounds (statementRound (g.statement true) false) c).1.1 := by
  induction hc : c.rest.length using Nat.strongRecOn generalizing c with
  | ind k ih =>
    by_cases here : c.skipNewlines.rest ≠ [] ∧ FailsAtEnd (g.statement true) c.skipNewlines
    · obtain ⟨hne, f, hf, only⟩ := here
      obtain ⟨read, d, d', run, run', hd, hd', final, final'⟩ :=
        round_of_failsAtEnd hg h hn hne (fun hk ↦ hindent _ hne hk ⟨f, hf, only⟩) hafter
          ⟨f, hf, only⟩
      have some : 0 < c.rest.length := by
        have : c.skipNewlines.rest.length ≤ c.rest.length := (Cursor.Follows.skip c _).length_le
        have := List.length_pos_iff.2 hne
        omega
      rw [rounds_again run (by rw [hd]; exact some),
        rounds_again run' (by simp only [hd', List.length_nil, Cursor.rest_within,
          List.length_append, length_recast]; omega)]
      dsimp only
      rw [rounds_at_end final hd, rounds_at_end final' hd', List.append_nil, List.append_nil]
    · have hne : c.skipNewlines.rest ≠ [] := by
        intro hnil
        cases late with
        | here hne => exact hne hnil
        | later again =>
          rw [statementRound_at_end _ h.final hnil] at again
          contradiction
      have notHere := mt (And.intro hne) here
      obtain ⟨read, d, run, run', follows, hd, shorter⟩ :=
        round_within (e := e) hg h hn hne fun h ↦ absurd h notHere
      have next : FailsLate (g.statement true) d := by
        cases late with
        | here _ h => exact absurd h notHere
        | later again next =>
          rw [run] at next
          exact next
      rw [rounds_again run shorter, rounds_again run' (length_within_lt_iff.2 shorter)]
      dsimp only
      rw [ih d.rest.length (hc ▸ shorter) hd (by omega) next rfl, recast_append]

private theorem rounds_congr {α : Type} {round : StateM Cursor (List α × RoundEnd)}
    (h : round c = round d) (hle : d.rest.length ≤ c.rest.length)
    (progress : ∀ xs a, round d = ((xs, .again), a) → a.rest.length < d.rest.length) :
    rounds round c = rounds round d := by
  rcases hr : round d with ⟨⟨xs, _ | _ | f⟩, a⟩
  · have shorter := progress xs a hr
    rw [rounds_again (h.trans hr) (Nat.lt_of_lt_of_le shorter hle), rounds_again hr shorter]
  · rw [rounds_stop (h.trans hr), rounds_stop hr]
  · rw [rounds_fail (h.trans hr), rounds_fail hr]

/-- What a stream is read as does not depend on what was read before it. -/
theorem rounds_after (hg : Agrees e n g g') (h : c.Stands 0) (hn : c.rest.length ≤ n)
    (hafter : e.after = []) :
    (rounds (statementRound (g'.statement true) false) (c.within e)).1.1
        = recast .bare (rounds (statementRound (g.statement true) false) c).1.1
      ∧ (rounds (statementRound (g'.statement true) false) (c.within e)).2
        = (rounds (statementRound (g.statement true) false) c).2.within e := by
  obtain ⟨read, a, ha, hend, -, run, read', cursor⟩ := rounds_within hg h hn fun _ ↦ hafter
  have within : (a.within e).skipNewlines = a.skipNewlines.within e := Cursor.skipNewlines_within
  have nothing : (a.within e).skipNewlines.rest = [] := by
    rw [within, Cursor.rest_within, hend, hafter]
    rfl
  have last := rounds_stop (statementRound_at_end (c := a.within e) (g'.statement true) rfl nothing)
  rw [read', cursor, run, last, within, List.append_nil]
  exact ⟨rfl, rfl⟩

/-- Where no line ends, there is no end of a line to skip. -/
theorem skipNewlines_of_head (h : ∀ t ∈ c.rest.head?, t.kind ≠ .newline) : c.skipNewlines = c := by
  have none : c.rest.takeWhile (·.kind = .newline) = [] := by
    cases hc : c.rest with
    | nil => rfl
    | cons t ts =>
      have := h t (by simp [hc])
      simp [this]
  rw [Cursor.skipNewlines, none]
  rfl

end Parser

/-! ## Two streams, one after the other -/

/-- A cursor at the start of a stream. -/
structure Cursor.Starts (c : Cursor) : Prop extends c.Stands 0 where
  previous : c.previous = none
  errors : c.errors = []

/-- The surroundings of a stream on its own. -/
def Surroundings.alone : Surroundings where
  errors := []
  previous := none
  after := []
  after_starts := by simp

/-- The surroundings of a stream that follows what was read up to `c`. -/
def Surroundings.following (c : Cursor) : Surroundings where
  errors := recast .bare c.errors
  previous := recast .bare c.previous
  after := []
  after_starts := by simp

/-- The surroundings of a stream that is followed by other tokens. -/
def Surroundings.before (after : List Token)
    (h : ∀ t ∈ after.find? (!·.kind.isComment), t.kind.startsStatement = true) : Surroundings where
  errors := []
  previous := none
  after := after
  after_starts := h

/-- What the statements outside of blocks are read as, with parsers nested at most `depth` deep. -/
abbrev readAll (depth : Nat) (c : Cursor) : (List Statement × Option ParseError) × Cursor :=
  rounds (Parser.statementRound ((Nested.upTo depth).statement true) false) c

section Append

variable {p q r : Cursor} {m n k : Nat}

/-- A stream `r` that is `p` and then `q` but for places is `p` in its surroundings. -/
theorem within_before (hp : p.Starts) (hr : r.Starts)
    (hrest : recast .bare r.rest = recast .bare (p.rest ++ q.rest))
    (starts : ∀ t ∈ q.rest.find? (!·.kind.isComment), t.kind.startsStatement = true) :
    r.within .alone = p.within (.before q.rest starts) := by
  simp only [Cursor.within, Surroundings.alone, Surroundings.before, List.append_nil, hrest,
    hp.previous, hr.previous, hp.errors, hr.errors]

/-- Reading on where a stream ends is reading the one that follows. -/
theorem readAll_next (hend : p.skipNewlines.rest = []) (hq : q.Starts)
    (starts : ∀ t ∈ q.rest.find? (!·.kind.isComment), t.kind.startsStatement = true)
    (hdq : q.rest.length ≤ n) (hdr : q.rest.length ≤ k) :
    readAll k (p.within (.before q.rest starts))
      = readAll k (q.within (.following p.skipNewlines)) := by
  have within : (p.within (.before q.rest starts)).skipNewlines
      = q.within (.following p.skipNewlines) := by
    rw [Cursor.skipNewlines_within]
    simp [Cursor.within, Surroundings.before, Surroundings.following, hend, hq.previous, hq.errors]
  have heads : ∀ t ∈ (q.within (.following p.skipNewlines)).rest.head?, t.kind ≠ .newline := by
    cases hc : q.rest with
    | nil => simp [hc, Surroundings.following]
    | cons u us =>
      have head := (Surroundings.before q.rest starts).head_after (t := u)
        (by simp [Surroundings.before, hc])
      intro t ht
      obtain rfl : recast .bare u = t := by simpa [hc] using ht
      rw [kind_recast]
      intro hk
      have := (bare_eq_iff (by simp)).1 hk
      simp [this, TokenKind.isComment, TokenKind.startsStatement] at head
  refine Parser.rounds_congr ?_ ?_ fun xs a hxs ↦ ?_
  · rw [Parser.statementRound_apply, Parser.statementRound_apply, within,
      Parser.skipNewlines_of_head heads]
  · simp [Surroundings.before, Surroundings.following]
  · by_cases hne : q.skipNewlines.rest = []
    · have nothing : (q.within (.following p.skipNewlines)).skipNewlines.rest = [] := by
        rw [Cursor.skipNewlines_within, Cursor.rest_within, hne]
        rfl
      rw [Parser.statementRound_at_end _ rfl nothing] at hxs
      cases hxs
    · obtain ⟨read, d, -, there, -, -, shorter⟩ :=
        Parser.round_within (e := .following p.skipNewlines)
        (agrees_upTo hdq hdr) hq.toStands (Nat.le_refl _) hne fun _ ↦ rfl
      rw [there] at hxs
      cases hxs
      exact length_within_lt_iff.2 shorter

/-- Two streams one after the other are read as each of them alone, unless the first fails late. -/
theorem readAll_append (hp : p.Starts) (hq : q.Starts) (hr : r.Starts)
    (hrest : recast .bare r.rest = recast .bare (p.rest ++ q.rest))
    (starts : ∀ t ∈ q.rest.find? (!·.kind.isComment), t.kind.startsStatement = true)
    (hdp : p.rest.length ≤ m) (hdq : q.rest.length ≤ n) (hdr : r.rest.length ≤ k)
    (notLate : ¬ Parser.FailsLate ((Nested.upTo m).statement true) p) :
    recast .bare (readAll k r).1.1
        = recast .bare (readAll m p).1.1 ++ recast .bare (readAll n q).1.1
      ∧ recast .bare (readAll k r).2.errors
        = recast .bare (readAll m p).2.errors ++ recast .bare (readAll n q).2.errors := by
  have lengths : r.rest.length = p.rest.length + q.rest.length := by
    have := congrArg List.length hrest
    simpa using this
  obtain ⟨read, a, ha, hend, -, run, read', cursor'⟩ :=
    Parser.rounds_within (e := .before q.rest starts)
      (agrees_upTo hdp (by omega : p.rest.length ≤ k))
      hp.toStands (Nat.le_refl _) fun late ↦ absurd late notLate
  obtain ⟨readR, cursorR⟩ := Parser.rounds_after (e := .alone)
    (agrees_upTo hdr hdr) hr.toStands (Nat.le_refl _) rfl
  obtain ⟨readQ, cursorQ⟩ := Parser.rounds_after (e := .following a.skipNewlines)
    (agrees_upTo hdq (by omega : q.rest.length ≤ k)) hq.toStands (Nat.le_refl _) rfl
  have next := readAll_next hend hq starts hdq (by omega : q.rest.length ≤ k)
  rw [within_before hp hr hrest starts] at readR cursorR
  have ranP : (readAll m p).1.1 = read ∧ (readAll m p).2 = a.skipNewlines := by
    rw [readAll, run]
    exact ⟨rfl, rfl⟩
  rw [ranP.1, ranP.2]
  constructor
  · calc recast .bare (readAll k r).1.1
        = recast .bare read ++ (readAll k (a.within (.before q.rest starts))).1.1 :=
          readR.symm.trans read'
      _ = recast .bare read ++ recast .bare (readAll n q).1.1 := by rw [next, ← readQ]
  · calc recast .bare (readAll k r).2.errors
        = ((readAll k r).2.within .alone).errors := by
          simp [Cursor.within, Surroundings.alone]
      _ = (readAll k (a.within (.before q.rest starts))).2.errors :=
          congrArg Cursor.errors (cursorR.symm.trans cursor')
      _ = ((readAll n q).2.within (.following a.skipNewlines)).errors := by
          rw [next, ← cursorQ]
      _ = recast .bare a.skipNewlines.errors ++ recast .bare (readAll n q).2.errors := rfl

/-- If the first of two streams fails late, no statement of the second is read if nothing in it
ends before its own end. -/
theorem readAll_append_of_failsLate (hp : p.Starts) (hr : r.Starts)
    (hrest : recast .bare r.rest = recast .bare (p.rest ++ q.rest))
    (starts : ∀ t ∈ q.rest.find? (!·.kind.isComment), t.kind.startsStatement = true)
    (hdp : p.rest.length ≤ m) (hdr : r.rest.length ≤ k)
    (hafter : Cursor.failedLength 0 q.rest = q.rest.length)
    (late : Parser.FailsLate ((Nested.upTo m).statement true) p) :
    recast .bare (readAll k r).1.1 = recast .bare (readAll m p).1.1 := by
  have lengths : r.rest.length = p.rest.length + q.rest.length := by
    have := congrArg List.length hrest
    simpa using this
  obtain ⟨readR, -⟩ := Parser.rounds_after (e := .alone)
    (agrees_upTo hdr hdr) hr.toStands (Nat.le_refl _) rfl
  rw [within_before hp hr hrest starts] at readR
  refine readR.symm.trans ?_
  refine Parser.rounds_within_of_failsLate (agrees_upTo hdp (by omega)) hp.toStands (Nat.le_refl _)
    (fun d hne hk ↦ ?_) hafter late
  obtain ⟨t, ts, ht⟩ := List.exists_cons_of_ne_nil hne
  have more : onlyComments d.rest = false := by
    have : t.kind = .indent := by simpa [Cursor.current, ht] using hk
    simp [ht, onlyComments, this, TokenKind.isComment]
  have stays : ((Nested.upTo m).statement true d).2 = d := by
    cases m with
    | zero => rfl
    | succ depth =>
      obtain ⟨f, hf⟩ := Parser.statement_of_not_starts (g := .upTo depth) true
        (by rw [hk]; rfl) (by rw [hk]; rfl)
      exact congrArg Prod.snd hf
  rintro ⟨f, -, only⟩
  rw [stays, more] at only
  contradiction

end Append

/-! ## What starts a stream without errors -/

section Starts

variable {c : Cursor} {depth : Nat}

private theorem readAll_follows (h : c.Stands 0) (hd : c.rest.length ≤ depth) :
    c.Follows (readAll depth c).2 := by
  obtain ⟨read, a, -, -, follows, run, -⟩ := Parser.rounds_within (e := .alone)
    (agrees_upTo hd hd) h (Nat.le_refl _) fun _ ↦ rfl
  rw [readAll, run]
  exact follows.trans (.skip a _)

/-- Recovery leaves an error on record. -/
theorem errors_recover_ne_nil (h : c.rejected = []) (f : ParseError) :
    (c.recover f).errors ≠ [] := by
  have reported : (c.report f).errors = c.errors ++ [f] := by simp [Cursor.report, h]
  have kept : (c.report f).errors <+: (c.recover f).errors := (Cursor.Follows.skip _ _).errors
  intro hnil
  rw [hnil, reported] at kept
  simp at kept

/-- Errors are not taken back. -/
theorem errors_readAll_ne_nil (h : c.Stands 0) (hd : c.rest.length ≤ depth) (hne : c.errors ≠ []) :
    (readAll depth c).2.errors ≠ [] := by
  intro hnil
  have grows := (readAll_follows h hd).errors
  rw [hnil] at grows
  exact hne (List.prefix_nil.1 grows)

private theorem errors_of_recover {f : ParseError} {read : List Statement} (h : c.Stands 0)
    (hd : c.rest.length ≤ depth)
    (run : Parser.statementRound ((Nested.upTo depth).statement true) false c
      = ((read, .again), c.recover f))
    (hne : c.rest ≠ []) : (readAll depth c).2.errors ≠ [] := by
  obtain ⟨t, ts, ht⟩ := List.exists_cons_of_ne_nil hne
  have notDedent : t.kind ≠ .dedent := by
    have := Parser.current_ne_dedent h
    simpa [Cursor.current, ht] using this
  have shorter := Cursor.length_recover_lt (f := f) (.refl c) ht notDedent
  rw [readAll, rounds_again run shorter]
  exact errors_readAll_ne_nil h.recover (by omega) (errors_recover_ne_nil h.rejected f)

/-- A stream that fails late is not read without errors. -/
theorem errors_of_failsLate (h : c.Stands 0) (hd : c.rest.length ≤ depth)
    (late : Parser.FailsLate ((Nested.upTo depth).statement true) c) :
    (readAll depth c).2.errors ≠ [] := by
  induction late with
  | @here c hne fails =>
    obtain ⟨f, hf, -⟩ := fails
    have stands := h.skipNewlines
    have ahead : c.skipNewlines.rest.length ≤ c.rest.length := (Cursor.Follows.skip c _).length_le
    obtain ⟨read, d, run, -, -, hd', shorter⟩ := Parser.round_within (e := .alone)
      (agrees_upTo hd hd) h (Nat.le_refl _) hne fun _ ↦ rfl
    obtain @⟨_, _, a, there, -, -, same⟩ := (agrees_upTo (e := .alone) hd hd).statement
      true stands hne ahead
    have reported : d.errors ≠ [] := by
      have notEnd := Parser.current_ne_endOfFile stands hne
      have notDedent := Parser.current_ne_dedent stands
      by_cases hindent : c.skipNewlines.current.kind = .indent
      · rw [Parser.statementRound_apply, hindent] at run
        cases run
        exact errors_recover_ne_nil stands.rejected _
      · rw [Parser.statementRound_at_statement _ _ notEnd notDedent hindent, there] at run
        rw [there] at hf
        cases same with
        | all => contradiction
        | some stands' =>
          cases run
          exact errors_recover_ne_nil stands'.rejected _
    rw [readAll, rounds_again run shorter]
    exact errors_readAll_ne_nil hd' (Nat.le_trans (Nat.le_of_lt shorter) hd) reported
  | @later c again next ih =>
    have hne : c.skipNewlines.rest ≠ [] := by
      intro hnil
      rw [Parser.statementRound_at_end _ h.final hnil] at again
      contradiction
    obtain ⟨read, d, run, -, -, hd', shorter⟩ := Parser.round_within (e := .alone)
      (agrees_upTo hd hd) h (Nat.le_refl _) hne fun _ ↦ rfl
    rw [run] at ih
    rw [readAll, rounds_again run shorter]
    exact ih hd' (Nat.le_trans (Nat.le_of_lt shorter) hd)

/-- Where a stream is read without errors, a statement may start at its first token. -/
theorem starts_of_errors_nil (h : c.Stands 0) (hd : c.rest.length < depth)
    (hclean : (readAll depth c).2.errors = []) :
    ∀ t ∈ c.rest.find? (!·.kind.isComment), t.kind ≠ .newline → t.kind.startsStatement = true := by
  obtain ⟨depth, rfl⟩ : ∃ k, depth = k + 1 := ⟨depth - 1, by omega⟩
  induction hc : c.rest generalizing c with
  | nil => simp
  | cons u us ih =>
    have hne : c.rest ≠ [] := by simp [hc]
    have huk : c.current.kind = u.kind := by simp [Cursor.current, hc]
    have notDedent := Parser.current_ne_dedent h
    have notEnd := Parser.current_ne_endOfFile h hne
    intro t ht hnewline
    by_cases hcomment : u.kind.isComment = true
    · obtain ⟨text, htext⟩ : ∃ text, u.kind = .comment text := by
        cases hu : u.kind <;> simp_all [TokenKind.isComment]
      have skipped : c.skipNewlines = c :=
        Parser.skipNewlines_of_head (by simp [hc, htext])
      have round := Parser.statementRound_at_statement
        ((Nested.upTo (depth + 1)).statement true) false (c := c)
        (by rwa [skipped]) (by rwa [skipped]) (by rw [skipped, huk, htext]; simp)
      have advanced : c.advance.rest = us ∧ c.advance.previous = some u.kind := by
        simp [Cursor.advance, hc]
      rw [skipped, Parser.upTo_statement_at_comment (huk.trans htext),
        Parser.afterStatement, Parser.recovering_ok (Parser.endStatement_apply_of_ended
          (by rw [advanced.2, htext]; rfl))] at round
      have stands : c.advance.Stands 0 := by
        refine Cursor.Stands.skip (k := 1) h ?_
        rw [← h.opens, hc, openBlocks_cons_of_flat _ (by simp [htext]) (by simp [htext])]
        rfl
      have shorter : c.advance.rest.length < c.rest.length := by
        rw [advanced.1, hc]
        exact Nat.lt_succ_self _
      rw [readAll, rounds_again round shorter] at hclean
      exact ih stands (by omega) hclean advanced.1 t (by simpa [hcomment] using ht) hnewline
    · obtain rfl : u = t := by simpa [hcomment] using ht
      have skipped : c.skipNewlines = c :=
        Parser.skipNewlines_of_head (by simpa [hc] using hnewline)
      rw [Bool.not_eq_true] at hcomment
      cases hstarts : u.kind.startsStatement with
      | true => rfl
      | false =>
      exfalso
      by_cases hindent : c.current.kind = .indent
      · have round := Parser.statementRound_apply ((Nested.upTo (depth + 1)).statement true) false c
        rw [skipped, hindent] at round
        exact errors_of_recover h (Nat.le_of_lt hd) round hne hclean
      · obtain ⟨f, hf⟩ := Parser.statement_of_not_starts (g := .upTo depth) (c := c) true
          (by rw [huk]; exact hstarts) (by rw [huk]; exact hcomment)
        have round := Parser.statementRound_at_statement
          ((Nested.upTo (depth + 1)).statement true) false (c := c)
          (by rwa [skipped]) (by rwa [skipped]) (by rwa [skipped])
        rw [skipped] at round
        have run : (Nested.upTo (depth + 1)).statement true c = (([], some f), c) := hf
        rw [run] at round
        exact errors_of_recover h (Nat.le_of_lt hd) round hne hclean

end Starts

end ProseLang
