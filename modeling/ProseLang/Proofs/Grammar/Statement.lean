import ProseLang.Proofs.Grammar.Value

/-!
# Statements within surroundings
-/

namespace ProseLang

namespace Parser

variable {e : Surroundings} {L n : Nat} {c : Cursor} {g g' : Nested}

private theorem count_reads {role : String} (h : c.Live L (n + 1)) :
    Reads e L c (fun _ d ↦ d.Live L n) (count role) (count role) := by
  refine peek_reads h.ne_nil ?_
  cases hk : c.current.kind with
  | number digits =>
    refine (take_reads h.at (by rw [hk]; rfl)).bind fun t d hd ↦ ?_
    exact lift_reads hd.toStands (countOf_recast .bare ⟨digits, t.span⟩) fun _ _ ↦ hd
  | _ => exact unexpected_reads h.toStands

private theorem importSkill_reads (h : c.Live L (n + 1)) :
    Reads e L c (fun _ d ↦ d.At L n) importSkill importSkill := by
  refine (keyword_reads h).bind fun first d hd ↦ ?_
  refine (string_reads (hd.mono (Nat.le_succ n))).bind fun skill d hd ↦ ?_
  refine (keyword_reads (hd.mono (Nat.le_succ n))).bind fun fromKeyword d hd ↦ ?_
  refine (string_reads (hd.mono (Nat.le_succ n))).bind fun source d hd ↦ ?_
  exact spanFrom_reads (reads_pure rfl hd.at)

private theorem blockDefinition_reads (hg : Agrees e n g g') (h : c.Live L (n + 1)) :
    Reads e L c (fun _ d ↦ d.At L n) (blockDefinition g) (blockDefinition g') := by
  refine (keyword_reads h).bind fun first d hd ↦ ?_
  refine (name_reads (hd.mono (Nat.le_succ n))).bind fun name d hd ↦ ?_
  refine (parenthesized?_reads hd.at fun a ha ↦
    (name_reads (ha.mono (Nat.le_succ n))).mono fun _ _ _ hb ↦ hb.at).bind fun params d hd ↦ ?_
  refine (block_reads hg hd).bind fun body d hd ↦ ?_
  exact spanFrom_reads (reads_pure rfl hd)

private theorem binding_reads (hg : Agrees e n g g') (pipes : Bool) (kind : BindingKind)
    (h : c.Live L (n + 1)) :
    Reads e L c (fun _ d ↦ d.At L n) (binding g pipes kind) (binding g' pipes kind) := by
  refine (keyword_reads h).bind fun first d hd ↦ ?_
  refine (name_reads (hd.mono (Nat.le_succ n))).bind fun name d hd ↦ ?_
  refine (symbol_reads (hd.at.mono (Nat.le_succ n)) (.inr rfl)).bind fun _ d hd ↦ ?_
  refine (value_reads hg pipes (hd.mono (Nat.le_succ n))).bind fun value d hd ↦ ?_
  exact spanFrom_reads (reads_pure rfl hd)

private theorem assignment_reads (hg : Agrees e n g g') (pipes : Bool) (h : c.Live L (n + 1)) :
    Reads e L c (fun _ d ↦ d.At L n) (assignment g pipes) (assignment g' pipes) := by
  refine (name_reads h).bind fun name d hd ↦ ?_
  refine (symbol_reads (hd.at.mono (Nat.le_succ n)) (.inr rfl)).bind fun _ d hd ↦ ?_
  refine (value_reads hg pipes (hd.mono (Nat.le_succ n))).bind fun value d hd ↦ ?_
  exact spanFrom_reads (reads_pure rfl hd)

private theorem asBinding?_reads (h : c.Live L n) :
    Reads e L c (fun _ d ↦ d.Live L n) asBinding? asBinding? := by
  refine (take?_reads (h.at.mono (Nat.le_succ n)) rfl (by simp) (.inr rfl)).bind
    fun t d ⟨_, hnone, hsome⟩ ↦ ?_
  cases t with
  | none =>
    obtain rfl := hnone rfl
    exact reads_pure rfl h
  | some t =>
    refine (name_reads ((hsome rfl).mono (Nat.le_succ n))).bind fun name d hd ↦ ?_
    exact reads_pure rfl hd

/-- What follows the variables of a loop over a collection. -/
private def forEachAfterIndex (g : Nested) (pipes : Bool) (parallelKeyword : Option Span)
    (forKeyword : Span) (item : Ident) (index : Option Ident) : Parser ForEach := do
  let inKeyword ← keyword .in_
  let collection ← primary g pipes
  let body ← block g .forEachBlock
  return { item, index, collection, isParallel := parallelKeyword.isSome, forKeyword, inKeyword,
           body, span := ← spanFrom (parallelKeyword.getD forKeyword) }

private theorem forEachAfterIndex_reads (hg : Agrees e n g g') (pipes : Bool)
    (parallelKeyword : Option Span) (forKeyword : Span) (item : Ident) (index : Option Ident)
    (h : c.Live L n) :
    Reads e L c (fun _ d ↦ d.At L n)
      (forEachAfterIndex g pipes parallelKeyword forKeyword item index)
      (forEachAfterIndex g' pipes (recast .bare parallelKeyword) .nowhere (recast .bare item)
        (recast .bare index)) := by
  refine (keyword_reads (h.mono (Nat.le_succ n))).bind fun inKeyword d hd ↦ ?_
  refine (primary_reads hg pipes (hd.mono (Nat.le_succ n))).bind fun collection d hd ↦ ?_
  refine (block_reads hg hd).bind fun body d hd ↦ ?_
  cases parallelKeyword <;> exact spanFrom_reads (reads_pure rfl hd)

private theorem forEach_reads (hg : Agrees e n g g') (pipes : Bool) (parallelKeyword : Option Span)
    (h : c.Live L (n + 1)) :
    Reads e L c (fun _ d ↦ d.At L n) (forEach g pipes parallelKeyword)
      (forEach g' pipes (recast .bare parallelKeyword)) := by
  refine (keyword_reads h).bind fun forKeyword d hd ↦ ?_
  refine (name_reads (hd.mono (Nat.le_succ n))).bind fun item d hd ↦ ?_
  refine (symbol?_reads (hd.at.mono (Nat.le_succ n)) rfl).bind fun b a ⟨_, hnone, hlive⟩ ↦ ?_
  cases b with
  | true =>
    refine Reads.bind (R := fun _ d ↦ d.Live L n)
      ((name_reads ((hlive rfl).mono (Nat.le_succ n))).map fun _ ↦ by rfl) fun index d hd ↦ ?_
    exact forEachAfterIndex_reads hg pipes parallelKeyword forKeyword item index hd
  | false =>
    obtain rfl := hnone rfl
    exact forEachAfterIndex_reads hg pipes parallelKeyword forKeyword item none hd

private theorem parallel_reads (hg : Agrees e n g g') (pipes : Bool) (h : c.Live L (n + 1)) :
    Reads e L c (fun _ d ↦ d.At L n) ((fun s ↦ [s]) <$> parallel g pipes)
      ((fun s ↦ [s]) <$> parallel g' pipes) := by
  rw [parallel, parallel, map_bind, map_bind]
  refine (keyword_reads h).bind fun first d hd ↦ ?_
  rw [map_bind, map_bind]
  refine at?_reads hd.toStands (by simp) (.inl hd.ne_nil) ?_
  split
  · simp only [map_bind, map_pure]
    refine (forEach_reads hg pipes (some first) (hd.mono (Nat.le_succ n))).bind fun f d hd ↦ ?_
    exact reads_pure (by rw [recast_forEach]) hd
  · simp only [map_bind, map_pure]
    refine (modifiers?_reads hd.at).bind fun ms d hd ↦ ?_
    let empty : Parallel :=
      { join := none, onFail := none, count := none, keys := [], body := [], span := first }
    refine Reads.bind (R := fun _ d ↦ d.At L n) (lift_reads hd.toStands
      (ParallelOf.withModifiers_recast .bare empty ms) fun _ _ ↦ hd) fun p d hd ↦ ?_
    refine (symbol_reads (hd.mono (Nat.le_succ n)) (.inr rfl)).bind fun _ d hd ↦ ?_
    refine (blockBody?_reads hg hd.at).bind fun body d hd ↦ ?_
    exact spanFrom_reads (reads_pure (by rw [recast_parallel]; rfl) hd)

private theorem repeated_reads (hg : Agrees e n g g') (h : c.Live L (n + 1)) :
    Reads e L c (fun _ d ↦ d.At L n) (repeated g) (repeated g') := by
  refine (keyword_reads h).bind fun first d hd ↦ ?_
  refine (count_reads (hd.mono (Nat.le_succ n))).bind fun count d hd ↦ ?_
  refine (asBinding?_reads hd).bind fun index d hd ↦ ?_
  refine (block_reads hg hd.at).bind fun body d hd ↦ ?_
  exact spanFrom_reads (reads_pure rfl hd)

private theorem loopCondition_reads (kind : ConditionKind) (h : c.Live L n)
    (hp : c.current.kind.isPlain = true) :
    Reads e L c (fun _ d ↦ d.Live L n) (loopCondition kind) (loopCondition kind) := by
  refine (take_reads (h.at.mono (Nat.le_succ n)) hp).bind fun keyword d hd ↦ ?_
  refine (discretion_reads (hd.mono (Nat.le_succ n))).bind fun discretion d hd ↦ ?_
  exact reads_pure rfl hd

private theorem loopCondition?_reads (h : c.Live L n) :
    Reads e L c (fun _ d ↦ d.Live L n) loopCondition? loopCondition? := by
  refine peek_reads h.ne_nil ?_
  cases hk : c.current.kind with
  | keyword word =>
    have plain : c.current.kind.isPlain = true := by rw [hk]; rfl
    cases word with
    | until_ => exact (loopCondition_reads .until_ h plain).map fun _ ↦ by rfl
    | while_ => exact (loopCondition_reads .while_ h plain).map fun _ ↦ by rfl
    | _ => exact reads_pure rfl h
  | _ => exact reads_pure rfl h

private theorem loop_reads (hg : Agrees e n g g') (h : c.Live L (n + 1)) :
    Reads e L c (fun _ d ↦ d.At L n) (loop g) (loop g') := by
  refine (keyword_reads h).bind fun first d hd ↦ ?_
  refine (loopCondition?_reads hd).bind fun condition d hd ↦ ?_
  refine (asBinding?_reads hd).bind fun index d hd ↦ ?_
  refine (modifiers?_reads hd.at).bind fun ms d hd ↦ ?_
  let empty : Loop :=
    { condition, maxIterations := none, index, keys := [], body := [], span := first }
  refine Reads.bind (R := fun _ d ↦ d.At L n) (lift_reads hd.toStands
    (LoopOf.withModifiers_recast .bare empty ms) fun _ _ ↦ hd) fun l d hd ↦ ?_
  refine (block_reads hg hd).bind fun body d hd ↦ ?_
  exact spanFrom_reads (reads_pure rfl hd)

private theorem move_reads {β : Type} [Recastable β] {S : β → Cursor → Prop}
    {f f' : Cursor → Cursor}
    {k k' : Unit → Parser β} (hf : f' (c.within e) = (f c).within e) (follows : c.Follows (f c))
    (hk : Reads e L (f c) S (k ()) (k' ())) :
    Reads e L c S (move f >>= k) (move f' >>= k') := by
  obtain ⟨here, there, follows', same⟩ := hk
  refine ⟨here, ?_, follows.trans follows', same⟩
  change k' () (f' (c.within e)) = _
  rw [hf, there]

private theorem clause?_reads {α : Type} [Recastable α] {word : Keyword} {p p' : Span → Parser α}
    (h : c.At L n) (hw : (TokenKind.keyword word).startsStatement = false)
    (hp : ∀ first d, d.Live L n → Reads e L d (fun _ a ↦ a.At L n) (p first) (p' .nowhere)) :
    Reads e L c (fun _ d ↦ d.At L n) (clause? word p) (clause? word p') := by
  refine cursor_reads ?_
  rw [Cursor.comesNext_within hw]
  cases hc : c.comesNext (.keyword word) with
  | false => exact reads_pure rfl h
  | true =>
    obtain ⟨hk, more⟩ := Cursor.current_skipComments hc
    have live := h.toStands.live_skipComments (Nat.le_succ_of_le h.length_le) more
    refine move_reads (Cursor.skipComments_within more) (.skip c _) ?_
    refine (take_reads live.at (by rw [hk]; rfl)).bind fun t d hd ↦ ?_
    exact (hp t.span d hd).map fun _ ↦ by rfl

/-- A clause that is nothing but a block. -/
theorem body_reads (hg : Agrees e n g g') (construct : Construct) (first : Span) (h : c.At L n) :
    Reads e L c (fun _ d ↦ d.At L n)
      (do let body ← block g construct
          return ({ body, span := ← spanFrom first } : Body))
      (do let body ← block g' construct
          return ({ body, span := ← spanFrom .nowhere } : Body)) := by
  refine (block_reads hg h).bind fun body d hd ↦ ?_
  exact spanFrom_reads (reads_pure rfl hd)

private theorem report_at {f : ParseError} (h : c.At L n) : (c.report f).At L n := by
  have same : (c.report f).previous = c.previous := by
    unfold Cursor.report
    split <;> rfl
  exact { h.toStands.report with
    length_le := by
      rw [Cursor.rest_report]
      exact h.length_le
    ended := by
      rw [Cursor.rest_report, same]
      exact h.ended }

private theorem attempt_reads (hg : Agrees e n g g') (h : c.Live L (n + 1)) :
    Reads e L c (fun _ d ↦ d.At L n) (attempt g) (attempt g') := by
  refine (keyword_reads h).bind fun first d hd ↦ ?_
  refine (block_reads hg hd.at).bind fun body d hd ↦ ?_
  refine (clause?_reads hd rfl fun first d hd ↦ ?_).bind fun handler d hd ↦ ?_
  · refine (asBinding?_reads hd).bind fun error d hd ↦ ?_
    refine (block_reads hg hd.at).bind fun body d hd ↦ ?_
    exact spanFrom_reads (reads_pure rfl hd)
  refine (clause?_reads hd rfl fun first d hd ↦
    body_reads hg .finallyClause first hd.at).bind fun cleanup d hd ↦ ?_
  rw [isNone_recast, isNone_recast]
  split
  · refine move_reads (Cursor.report_within hd.rejected ⟨.missingHandler, first⟩) (.report d _) ?_
    exact spanFrom_reads (reads_pure rfl (report_at hd))
  · exact spanFrom_reads (reads_pure rfl hd)

private theorem throwStatement_reads (h : c.Live L (n + 1)) :
    Reads e L c (fun _ d ↦ d.At L n) throwStatement throwStatement := by
  refine (keyword_reads h).bind fun first d hd ↦ peek_reads hd.ne_nil ?_
  cases hk : d.current.kind with
  | string literal =>
    refine Reads.bind (R := fun _ d ↦ d.Live L n)
      ((string_reads (hd.mono (Nat.le_succ n))).map fun _ ↦ by rfl) fun message d hd ↦ ?_
    exact spanFrom_reads (reads_pure rfl hd.at)
  | _ =>
    refine Reads.bind (R := fun _ d ↦ d.Live L n) (reads_pure (x := none) rfl hd)
      fun message d hd ↦ ?_
    exact spanFrom_reads (reads_pure rfl hd.at)

private theorem choiceOption_reads (hg : Agrees e n g g') (h : c.Live L (n + 1)) :
    Reads e L c (fun _ d ↦ d.At L n) (choiceOption g) (choiceOption g') := by
  refine (keyword_reads h).bind fun first d hd ↦ ?_
  refine (string_reads (hd.mono (Nat.le_succ n))).bind fun label d hd ↦ ?_
  refine (block_reads hg hd.at).bind fun body d hd ↦ ?_
  exact spanFrom_reads (reads_pure rfl hd)

private theorem branch_reads (hg : Agrees e n g g') (word : Keyword) (h : c.Live L (n + 1)) :
    Reads e L c (fun _ d ↦ d.At L n) (branch g word) (branch g' word) := by
  refine (keyword_reads h).bind fun keyword d hd ↦ ?_
  refine (discretion_reads (hd.mono (Nat.le_succ n))).bind fun condition d hd ↦ ?_
  refine (block_reads hg hd.at).bind fun body d hd ↦ ?_
  exact spanFrom_reads (reads_pure rfl hd)

private theorem conditional_reads (hg : Agrees e n g g') (h : c.Live L (n + 1)) :
    Reads e L c (fun _ d ↦ d.At L n) (conditional g) (conditional g') := by
  refine cursor_reads ?_
  rw [Cursor.current_within h.ne_nil, span_recast]
  refine (branch_reads hg .if_ h).bind fun start d hd ↦ ?_
  refine Reads.bind (R := fun _ d ↦ d.At L n) (manyWhile_reads (I := fun d ↦ d.At L n)
    (J := fun d ↦ d.At L n ∧ d.comesNext (.keyword .elif) = true) hd (fun d hd ↦ ?_)
    fun d hd ↦ ?_) fun more d hd ↦ ?_
  · refine cursor_reads ?_
    rw [Cursor.comesNext_within rfl]
    exact reads_pure rfl ⟨hd, fun h ↦ ⟨hd, h⟩⟩
  · obtain ⟨-, more⟩ := Cursor.current_skipComments hd.2
    have live := hd.1.toStands.live_skipComments (Nat.le_succ_of_le hd.1.length_le) more
    exact move_reads (Cursor.skipComments_within more) (.skip d _) (branch_reads hg .elif live)
  · refine (clause?_reads hd rfl fun first d hd ↦
      body_reads hg .elseClause first hd.at).bind fun otherwise d hd ↦ ?_
    exact spanFrom_reads (reads_pure rfl hd)

private theorem span_bare_expr (x : Expr) : (recast .bare x).span = .nowhere := by
  cases x with
  | action a => cases a <;> rfl
  | string | number | ident | array | object | discretion => rfl

/-- A statement that starts with a value, as one of several. -/
theorem map_pipeStatement (g : Nested) (pipes : Bool) :
    (fun s ↦ [s]) <$> pipeStatement g pipes = (do
      let first := (← cursor).current.span
      let input ← primary g pipes
      if ← atPipe pipes then return [.action (.pipe (← pipeTail g input first))]
      else throw ⟨.unexpected "a statement" input.describe, input.span⟩) := by
  rw [pipeStatement, map_bind]
  congr 1
  funext c
  rw [map_bind]
  congr 1
  funext input
  rw [map_bind]
  congr 1
  funext opens
  cases opens <;> simp

private theorem pipeStatement_reads (hg : Agrees e n g g') (pipes : Bool) (h : c.Live L (n + 1)) :
    Reads e L c (fun _ d ↦ d.At L n) ((fun s ↦ [s]) <$> pipeStatement g pipes)
      ((fun s ↦ [s]) <$> pipeStatement g' pipes) := by
  rw [map_pipeStatement, map_pipeStatement]
  refine cursor_reads ?_
  rw [Cursor.current_within h.ne_nil, span_recast]
  refine (primary_reads hg pipes h).bind fun input d hd ↦ atPipe_reads pipes hd ?_ ?_
  · refine throw_reads hd.toStands ?_
    rw [describe_recast_expr, span_bare_expr]
    rfl
  · refine (pipeTail_reads hg input _ hd).bind fun p a ha ↦ ?_
    exact reads_pure (by rw [recast_action, recast_pipe]) ha

/-- What a round of reading options does, by the token behind ends of lines and comments. -/
theorem choiceRound_apply (g : Nested) (c : Cursor) :
    choiceRound g c =
      match c.skipNewlines.skipComments.current.kind with
      | .dedent | .endOfFile => (([], .stop), c.skipNewlines.skipComments)
      | .keyword .option =>
        (((recovering (choiceOption g) c.skipNewlines.skipComments).1.toList, .again),
          (recovering (choiceOption g) c.skipNewlines.skipComments).2)
      | _ =>
        (((recovering (unexpected "'option'" : Parser ChoiceOption)
            c.skipNewlines.skipComments).1.toList, .again),
          (recovering (unexpected "'option'" : Parser ChoiceOption)
            c.skipNewlines.skipComments).2) := by
  have run : choiceRound g c = _ :=
    (state_bind (p := modify fun c ↦ c.skipNewlines.skipComments) rfl).trans
      (state_bind (p := get) rfl)
  rw [run]
  dsimp only
  cases c.skipNewlines.skipComments.current.kind with
  | keyword word => cases word <;> rfl
  | _ => rfl

private theorem choiceRound_reads (hg : Agrees e n g g')
    (h : c.Stands (L + 1)) (hn : c.rest.length ≤ n) :
    ReadsRound e (L + 1) c (fun d ↦ d.Stands (L + 1) ∧ d.rest.length ≤ n)
      (fun d ↦ d.Stands (L + 1) ∧ d.rest.length ≤ n ∧ d.current.kind = .dedent)
      (choiceRound g) (choiceRound g') := by
  have skips : c.Follows c.skipNewlines.skipComments :=
    (Cursor.Follows.skip c _).trans (.skip c.skipNewlines _)
  have live := h.skipNewlines.live_skipComments (Nat.le_refl _) h.skipNewlines.not_onlyComments
  have hn' := Nat.le_trans skips.length_le hn
  have round := choiceRound_apply g c
  have round' := choiceRound_apply g' (c.within e)
  rw [Cursor.skipNewlines_within, Cursor.skipComments_within h.skipNewlines.not_onlyComments,
    Cursor.current_within live.ne_nil, kind_recast] at round'
  generalize c.skipNewlines.skipComments = d at *
  obtain ⟨t, ts, ht⟩ := List.exists_cons_of_ne_nil live.ne_nil
  have htk : d.current.kind = t.kind := by simp [Cursor.current, ht]
  have hlen : d.rest.length = ts.length + 1 := by rw [ht]; rfl
  -- an option, or what stands in its place
  have option {p p' : Parser ChoiceOption} (hk : t.kind ≠ .dedent)
      (reads : Reads e (L + 1) d (fun _ a ↦ a.At (L + 1) ts.length) p p')
      (run : choiceRound g c = (((recovering p d).1.toList, .again), (recovering p d).2))
      (run' : choiceRound g' (c.within e)
        = (((recovering p' (d.within e)).1.toList, .again), (recovering p' (d.within e)).2)) :
      ReadsRound e (L + 1) c (fun d ↦ d.Stands (L + 1) ∧ d.rest.length ≤ n)
        (fun d ↦ d.Stands (L + 1) ∧ d.rest.length ≤ n ∧ d.current.kind = .dedent)
        (choiceRound g) (choiceRound g') := by
    obtain @⟨x, _, a, here, there, follows, rfl, stands, known, progress⟩ :=
      recovering_runs_in_block reads (fun _ _ ha ↦ ha.toStands) ht hk
    rw [here] at run
    rw [there] at run'
    have shorter : a.rest.length < c.rest.length := by
      have := skips.length_le
      cases x with
      | none =>
        have := progress rfl
        omega
      | some x =>
        have := (known x rfl).length_le
        omega
    have list : (recast .bare x).toList = recast .bare x.toList := by cases x <;> rfl
    rw [list] at run'
    exact ⟨run, run', skips.trans follows,
      .again ⟨stands, Nat.le_trans (Nat.le_of_lt shorter) hn⟩ (.inl shorter)⟩
  cases hk : d.current.kind with
  | dedent =>
    rw [hk] at round round'
    exact ⟨round, round', skips, .stop ⟨live.toStands, hn', hk⟩⟩
  | endOfFile =>
    have laid := live.laid
    rw [ht] at laid
    exact absurd (htk.symm.trans hk) laid.1
  | keyword word =>
    rw [hk] at round round'
    have notDedent : t.kind ≠ .dedent := by simp [← htk, hk]
    cases word with
    | option =>
      exact option notDedent (choiceOption_reads (hg.mono (by omega : ts.length ≤ n))
        { live with length_le := Nat.le_of_eq hlen }) round round'
    | _ => exact option notDedent (unexpected_reads live.toStands) round round'
  | _ =>
    rw [hk] at round round'
    exact option (by simp [← htk, hk]) (unexpected_reads live.toStands) round round'

private theorem options_runs (hg : Agrees e n g g')
    (h : c.Stands (L + 1)) (hn : c.rest.length ≤ n) :
    Runs e c (fun _ d ↦ d.Stands (L + 1) ∧ d.rest.length ≤ n ∧ d.current.kind = .dedent)
      (fun c ↦ ((rounds (choiceRound g) c).1.1, (rounds (choiceRound g) c).2))
      (fun c ↦ ((rounds (choiceRound g') c).1.1, (rounds (choiceRound g') c).2)) := by
  refine rounds_runs (L := L + 1) (I := fun d ↦ d.Stands (L + 1) ∧ d.rest.length ≤ n) ⟨h, hn⟩
    (fun d ⟨hd, hdn⟩ ↦ choiceRound_reads hg hd hdn) fun d f ↦ ?_
  rw [choiceRound_apply]
  split <;> simp

private theorem choice_reads (hg : Agrees e n g g') (h : c.Live L (n + 1)) :
    Reads e L c (fun _ d ↦ d.At L n) (choice g) (choice g') := by
  refine (keyword_reads h).bind fun first d hd ↦ ?_
  refine (discretion_reads (hd.mono (Nat.le_succ n))).bind fun criteria d hd ↦ ?_
  refine (symbol_reads (hd.at.mono (Nat.le_succ n)) (.inr rfl)).bind fun _ d hd ↦ cursor_reads ?_
  rw [Cursor.atBlock_within hd.toStands]
  cases hb : d.atBlock with
  | false =>
    exact (missingBlock_reads (R := fun (_ : Unit) _ ↦ False) hd.toStands).bind fun _ _ ↦ False.elim
  | true =>
    obtain ⟨t, u, hc, ht, hu⟩ := rest_of_atBlock hd.toStands hb
    obtain ⟨hne, hne'⟩ := ne_nil_of_atBlock hd.toStands hb
    have hlen := hd.length_le
    rw [hc] at hlen
    simp only [List.length_cons] at hlen
    refine (take_reads_of_ne_nil (R := fun _ a ↦ a = d.advance) hne rfl).bind ?_
    rintro _ _ rfl
    refine (take_reads_of_ne_nil (R := fun _ a ↦ a = d.advance.advance) hne' rfl).bind ?_
    rintro _ _ rfl
    have runs := options_runs hg (stands_in_block hd.toStands hb) (by omega)
    refine Reads.bind ((runs_reads (L := L) runs).congr rfl rfl) ?_
    rintro options a ⟨ha, hn, hk⟩
    refine (dedent_reads ha hn hk).bind fun _ a ha ↦ ?_
    rw [isEmpty_recast]
    split
    · exact (throw_reads (R := fun (_ : Unit) _ ↦ False) ha.toStands rfl).bind fun _ _ ↦ False.elim
    · exact spanFrom_reads (reads_pure rfl ha)

/-- A statement of one kind, as one of several. -/
theorem one_reads {α : Type} [Recastable α] {I : Cursor → Prop} {p p' : Parser α}
    {f : α → Statement} (h : Reads e L c (fun _ ↦ I) p p')
    (hf : ∀ x, [f (recast .bare x)] = recast .bare [f x]) :
    Reads e L c (fun _ ↦ I) ((fun s ↦ [s]) <$> (f <$> p)) ((fun s ↦ [s]) <$> (f <$> p')) := by
  rw [Functor.map_map, Functor.map_map]
  exact h.map hf

private theorem one_bind {α : Type} {R : List Statement → Cursor → Prop} {p p' : Parser α}
    {k k' : α → Parser Statement}
    (h : Reads e L c R (p >>= fun x ↦ (fun s ↦ [s]) <$> k x)
      (p' >>= fun x ↦ (fun s ↦ [s]) <$> k' x)) :
    Reads e L c R ((fun s ↦ [s]) <$> (p >>= k)) ((fun s ↦ [s]) <$> (p' >>= k')) := by
  rwa [map_bind, map_bind]



private theorem oneStatement_reads_of_live (hg : Agrees e n g g') (pipes : Bool)
    (h : c.Live L (n + 1)) :
    Reads e L c (fun _ d ↦ d.At L n) ((fun s ↦ [s]) <$> oneStatement g pipes)
      ((fun s ↦ [s]) <$> oneStatement g' pipes) := by
  have notComment : ∀ text, c.current.kind ≠ .comment text := by
    obtain ⟨t, ts, ht⟩ := List.exists_cons_of_ne_nil h.ne_nil
    have starts := h.starts
    rw [ht] at starts
    intro text hk
    simp only [Cursor.current, ht, List.headD_cons] at hk
    simp [startsPlainly, hk, TokenKind.isComment] at starts
  rw [oneStatement, oneStatement, map_bind, map_bind]
  refine peek_reads h.ne_nil ?_
  cases hk : c.current.kind with
  | comment text => exact absurd hk (notComment text)
  | keyword word =>
    cases word with
    | import_ => exact one_reads (importSkill_reads h) fun _ ↦ rfl
    | agent =>
      refine one_bind ((agent_reads hg pipes h).bind fun a d hd ↦ ?_)
      exact (reads_pure (x := [Statement.agent a]) (recast_agent _ a).symm hd).congr rfl rfl
    | block => exact one_reads (blockDefinition_reads hg h) fun b ↦ by rw [recast_block]
    | let_ => exact one_reads (binding_reads hg pipes .variable h) fun _ ↦ rfl
    | const => exact one_reads (binding_reads hg pipes .constant h) fun _ ↦ rfl
    | do_ => exact one_reads (doAction_reads hg pipes h) fun _ ↦ rfl
    | parallel => exact parallel_reads hg pipes h
    | repeat_ => exact one_reads (repeated_reads hg h) fun r ↦ by rw [recast_repeated]
    | for_ => exact one_reads (forEach_reads hg pipes none h) fun f ↦ by rw [recast_forEach]
    | loop => exact one_reads (loop_reads hg h) fun l ↦ by rw [recast_loop]
    | try_ => exact one_reads (attempt_reads hg h) fun t ↦ by rw [recast_attempt]
    | throw => exact one_reads (throwStatement_reads h) fun _ ↦ rfl
    | choice => exact one_reads (choice_reads hg h) fun c ↦ by rw [recast_choice]
    | if_ => exact one_reads (conditional_reads hg h) fun c ↦ by rw [recast_conditional]
    | _ => exact (unexpected_reads h.toStands).congr rfl rfl
  | identifier name =>
    refine one_bind (peekNext_reads (tail_ne_nil h.at (by rw [hk]; rfl)) ?_)
    cases hnext : c.next.kind with
    | symbol mark =>
      cases mark with
      | equals => exact one_reads (assignment_reads hg pipes h) fun _ ↦ rfl
      | colon =>
        refine (cursor_reads (throw_reads (g := ⟨.strayProperty name, (c.within e).current.span⟩)
          h.toStands ?_)).congr rfl rfl
        rw [Cursor.current_within h.ne_nil]
        rfl
      | _ => exact pipeStatement_reads hg pipes h
    | _ => exact pipeStatement_reads hg pipes h
  | string | number | discretion => exact pipeStatement_reads hg pipes h
  | symbol mark =>
    cases mark with
    | leftBracket | leftBrace => exact pipeStatement_reads hg pipes h
    | _ => exact (unexpected_reads h.toStands).congr rfl rfl
  | _ => exact (unexpected_reads h.toStands).congr rfl rfl

/-- A statement that is no session is read the same. -/
theorem oneStatement_reads (hg : Agrees e n g g') (pipes : Bool) (h : c.Stands L)
    (hne : c.rest ≠ []) (hn : c.rest.length ≤ n + 1) :
    Reads e L c (fun _ d ↦ d.At L n) ((fun s ↦ [s]) <$> oneStatement g pipes)
      ((fun s ↦ [s]) <$> oneStatement g' pipes) := by
  obtain ⟨t, ts, ht⟩ := List.exists_cons_of_ne_nil hne
  have htk : c.current.kind = t.kind := by simp [Cursor.current, ht]
  cases hcomment : t.kind.isComment with
  | false =>
    refine oneStatement_reads_of_live hg pipes { h with length_le := hn, starts := ?_ }
    simp [ht, startsPlainly, hcomment]
  | true =>
    obtain ⟨text, hk⟩ : ∃ text, t.kind = .comment text := by
      cases hk : t.kind <;> simp_all [TokenKind.isComment]
    have advanced : c.advance.rest = ts ∧ c.advance.previous = some t.kind := by
      simp [Cursor.advance, ht]
    have laid := h.laid
    have opens := h.opens
    rw [ht] at laid hn
    rw [ht, openBlocks_cons_of_flat _ (by simp [hk]) (by simp [hk])] at opens
    rw [oneStatement, oneStatement, map_bind, map_bind]
    refine peek_reads hne ?_
    rw [htk, hk]
    refine one_bind ((take_reads_of_ne_nil (R := fun _ d ↦ d.At L n) hne ?_).bind fun t d hd ↦
      (reads_pure (x := [Statement.comment ⟨text, t.span⟩]) rfl hd).congr rfl rfl)
    refine { laid := ?_, final := ?_, rejected := ?_, opens := ?_, length_le := ?_, ended := ?_ }
    · exact advanced.1 ▸ laid.2.2.2
    · exact (congrArg Token.kind (Cursor.final_skip c 1)).trans h.final
    · exact (Cursor.rejected_skip c 1).trans h.rejected
    · rw [advanced.1, opens]
    · rw [advanced.1]
      exact Nat.le_of_succ_le_succ hn
    · intro _
      rw [advanced.2, hk]
      rfl

section Rounds

variable {α ρ : Type} [Recastable α] {Same : Cursor → ρ → ρ → Prop}

private theorem get_mirrors {k k' : Cursor → StateM Cursor ρ}
    (h : Mirrors e c Same (k c) (k' (c.within e))) :
    Mirrors e c Same (get >>= k) (get >>= k') :=
  h.congr rfl rfl

private theorem run_mirrors {R : α → Cursor → Prop} {p p' : Parser α}
    {k k' : Except ParseError α → StateM Cursor ρ} (h : Reads e L c R p p')
    (hok : ∀ x d, R x d → Mirrors e d Same (k (.ok x)) (k' (.ok (recast .bare x))))
    (herror : ∀ f f' d, d.Stands L → e.Tells d f f' →
      Mirrors e d Same (k (.error f)) (k' (.error f'))) :
    Mirrors e c Same (p.run >>= k) (p'.run >>= k') := by
  obtain @⟨_, _, d, here, there, follows, same⟩ := h
  have run {r : Except ParseError α} {p : Parser α} {k : Except ParseError α → StateM Cursor ρ}
      {c d : Cursor} (h : p c = (r, d)) : (p.run >>= k) c = k r d := by
    change k (p c).1 (p c).2 = _
    rw [h]
  cases same with
  | ok hR =>
    obtain ⟨here', there', follows', same⟩ := hok _ d hR
    exact ⟨(run here).trans here', (run there).trans there', follows.trans follows', same⟩
  | error stands tells =>
    obtain ⟨here', there', follows', same⟩ := herror _ _ d stands tells
    exact ⟨(run here).trans here', (run there).trans there', follows.trans follows', same⟩

private theorem pure_mirrors {r r' : ρ} (h : Same c r r') : Mirrors e c Same (pure r) (pure r') :=
  ⟨rfl, rfl, .refl c, h⟩

end Rounds

/-- A round of reading what follows a session is the same. -/
theorem sessionRound_reads (hg : Agrees e n g g') (pipes : Bool) (h : c.Live L (n + 1)) :
    ReadsRound e L c (fun d ↦ d.Live L (n + 1)) (fun d ↦ d.At L n) (sessionRound g pipes)
      (sessionRound g' pipes) := by
  refine get_mirrors ?_
  rw [Cursor.current_within h.ne_nil, span_recast]
  refine run_mirrors (session_reads hg pipes h) (fun s d hd ↦ ?_) fun f f' d stands tells ↦
    pure_mirrors (.fail stands tells)
  refine run_mirrors (take?_reads (hd.mono (Nat.le_succ n)) rfl (by simp) (.inr rfl))
    (fun arrow a ⟨ha, hnone, hsome⟩ ↦ ?_) fun f f' d stands tells ↦
    pure_mirrors (.fail stands tells)
  cases arrow with
  | some arrow =>
    have live := hsome rfl
    refine get_mirrors ?_
    rw [Cursor.current_within live.ne_nil]
    have read : [Statement.action (.session
      { recast .bare s with arrow := some (recast .bare arrow).span })]
        = recast .bare [Statement.action (.session { s with arrow := some arrow.span })] := by
      rw [recast_action, recast_session]
      rfl
    by_cases hk : a.current.kind = .keyword .session
    · have hk' : (recast .bare a.current).kind = .keyword .session := (bare_eq_iff (by simp)).2 hk
      simp only [hk, hk', if_pos, read]
      exact pure_mirrors (.again (live.mono (Nat.le_succ n)) (.inr live.at))
    · have hk' : (recast .bare a.current).kind ≠ .keyword .session :=
        mt (bare_eq_iff (by simp)).1 hk
      simp only [hk, hk', if_false, read]
      refine pure_mirrors (.fail live.toStands fun _ ↦ ?_)
      rw [kind_recast, describe_recast, span_recast]
      rfl
  | none =>
    obtain rfl := hnone rfl
    refine get_mirrors ?_
    have bar : decide ((a.within e).current.kind = .symbol .pipe)
        = decide (a.current.kind = .symbol .pipe) :=
      decide_eq_decide.2 (Cursor.kind_within_iff hd.toStands (by simp) (.inr rfl))
    rw [bar]
    split
    · refine run_mirrors (R := fun _ d ↦ d.At L n) ?_ (fun p b hb ↦ ?_)
        fun f f' d stands tells ↦ pure_mirrors (.fail stands tells)
      · have reads := pipeTail_reads hg (.action (.session s)) c.current.span hd
        rwa [recast_expr_action, recast_session] at reads
      · have read : [Statement.action (.pipe (recast .bare p))]
          = recast .bare [Statement.action (.pipe p)] := by
          rw [recast_action, recast_pipe]
        exact pure_mirrors (read ▸ .stop hb)
    · have read : [Statement.action (.session (recast .bare s))]
          = recast .bare [Statement.action (.session s)] := by
        rw [recast_action, recast_session]
      exact pure_mirrors (read ▸ .stop hd)

/-- What a statement that is read or fails comes to among others. -/
def statementResult : Except ParseError (List Statement) → List Statement × Option ParseError
  | .ok read => (read, none)
  | .error e => ([], some e)

/-- A statement starts with a session and what follows it, or is one of the others. -/
theorem statement_apply (g : Nested) (pipes : Bool) (c : Cursor) :
    statement g pipes c = if c.current.kind = .keyword .session then
      rounds (sessionRound g pipes) c
      else (statementResult (((fun s ↦ [s]) <$> oneStatement g pipes).run c).1,
        (((fun s ↦ [s]) <$> oneStatement g pipes).run c).2) := by
  have mapped : ((fun s ↦ [s]) <$> oneStatement g pipes : Parser (List Statement)) c
      = ((oneStatement g pipes c).1.map ([·]), (oneStatement g pipes c).2) := by
    rw [map_eq_pure_bind]
    rcases h : oneStatement g pipes c with ⟨e | s, d⟩ <;> exact (bind_apply h).trans rfl
  rw [statement]
  split
  · rfl
  · rw [ExceptT.run, mapped]
    rcases oneStatement g pipes c with ⟨e | s, d⟩ <;> rfl

/-- A statement is read the same within surroundings. -/
theorem statement_gathers (hg : Agrees e n g g') (pipes : Bool) (h : c.Stands L)
    (hne : c.rest ≠ []) (hn : c.rest.length ≤ n + 1) :
    Gathers e L c (fun d ↦ d.At L n) (statement g pipes) (statement g' pipes) := by
  have session : (c.within e).current.kind = .keyword .session
      ↔ c.current.kind = .keyword .session := by
    rw [Cursor.current_within hne, kind_recast, bare_eq_iff (by simp)]
  by_cases hk : c.current.kind = .keyword .session
  · have live : c.Live L (n + 1) := by
      obtain ⟨t, ts, ht⟩ := List.exists_cons_of_ne_nil hne
      refine { h with length_le := hn, starts := ?_ }
      simp only [Cursor.current, ht, List.headD_cons] at hk
      simp [ht, startsPlainly, hk, TokenKind.isComment]
    refine (rounds_gathers live fun d hd ↦ sessionRound_reads hg pipes hd).congr ?_ ?_
    · rw [statement, if_pos hk]
    · rw [statement, if_pos (session.2 hk)]
  · obtain @⟨_, _, d, here, there, follows, same⟩ := oneStatement_reads hg pipes h hne hn
    cases same with
    | @ok read hR =>
      have run : statement g pipes c = ((read, none), d) := by
        rw [statement_apply, if_neg hk, ExceptT.run, here]
        rfl
      have run' : statement g' pipes (c.within e) = ((recast .bare read, none), d.within e) := by
        rw [statement_apply, if_neg (mt session.1 hk), ExceptT.run, there]
        rfl
      exact ⟨run, run', follows, .all hR⟩
    | @error f f' stands tells =>
      have run : statement g pipes c = (([], some f), d) := by
        rw [statement_apply, if_neg hk, ExceptT.run, here]
        rfl
      have run' : statement g' pipes (c.within e) = ((recast .bare [], some f'), d.within e) := by
        rw [statement_apply, if_neg (mt session.1 hk), ExceptT.run, there]
        rfl
      exact ⟨run, run', follows, .some stands tells⟩

end Parser

/-- Parsers for constructs nested less deep than there are tokens ahead read the same within
surroundings, whatever their depths. -/
theorem agrees_upTo {e : Surroundings} {n d d' : Nat} (hd : n ≤ d) (hd' : n ≤ d') :
    Agrees e n (.upTo d) (.upTo d') := by
  induction n generalizing d d' with
  | zero =>
    refine ⟨fun _ h ↦ ?_, fun _ h hne hn ↦ ?_, fun _ h hb ↦ ?_⟩
    · exact absurd (List.length_eq_zero_iff.1 (Nat.le_zero.1 h.length_le)) h.ne_nil
    · exact absurd (List.length_eq_zero_iff.1 (Nat.le_zero.1 hn)) hne
    · exact absurd (List.length_eq_zero_iff.1 (Nat.le_zero.1 h.length_le))
        (Parser.ne_nil_of_atBlock h.toStands hb).1
  | succ n ih =>
    obtain ⟨d, rfl⟩ : ∃ k, d = k + 1 := ⟨d - 1, by omega⟩
    obtain ⟨d', rfl⟩ : ∃ k, d' = k + 1 := ⟨d' - 1, by omega⟩
    have hg : Agrees e n (.upTo d) (.upTo d') := ih (by omega) (by omega)
    refine ⟨fun pipes h ↦ ?_, fun {L c} pipes h hne hn ↦ ?_, fun pipes h hb ↦ ?_⟩
    · exact (Parser.value_reads hg pipes h).bounded h.length_le
    · obtain ⟨k, hk⟩ : ∃ k, c.rest.length = k + 1 :=
        Nat.exists_eq_add_one.2 (List.length_pos_iff.2 hne)
      refine (Parser.statement_gathers (hg.mono (by omega : k ≤ n)) pipes h hne
        (Nat.le_of_eq hk)).imp ?_
      intro a r r' follows same
      cases same with
      | all ha =>
        have := ha.length_le
        exact .all ⟨ha.mono (by omega), by omega⟩
      | some stands tells => exact .some stands tells
    · exact Parser.propertyBlock_reads hg pipes h hb

end ProseLang
