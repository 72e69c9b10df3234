import ProseLang.Proofs.Grammar.EchoValues
import ProseLang.Proofs.Grammar.Spans

/-!
# Statements that are read alike

One lemma for each production. Comments before the clauses of a block are passed over on both sides;
what remains of a comment that is left out on the right is an error that names it.
-/

namespace ProseLang

variable {k : Likeness} {a : Stage} {g : Nested} {c c' : Cursor}

/-! ## Values in front -/

private theorem span_recast_action (r : Recast) (a : Action) :
    (recast r a).span = r.extent a.span := by
  cases a with
  | session s => rw [recast_session]; rfl
  | pipe p => rw [recast_pipe]; rfl
  | doBlock b => rw [recast_doBlock]; rfl
  | invoke i => rw [recast_invoke]; rfl

/-- Values that are alike stand alike if their first tokens do. -/
theorem Likeness.Like.span {e e' : Expr} (h : k.Like e e') (starts : k.Starts e.span e'.span) :
    k.Like e.span e'.span := by
  cases e with
  | action a =>
    cases e' with
    | action a' =>
      have extents := congrArg Action.span (Expr.action.inj h)
      change Action.span (recast k.left a) = Action.span (recast k.right a') at extents
      rw [span_recast_action, span_recast_action] at extents
      exact starts _ _ rfl rfl extents
    | _ => simp [Likeness.Like] at h
  | array x =>
    cases e' with
    | array x' =>
      rw [Likeness.Like, recast_expr_array, recast_expr_array] at h
      exact starts _ _ rfl rfl (congrArg ArrayOf.span (Expr.array.inj h))
    | _ => simp [Likeness.Like] at h
  | object x =>
    cases e' with
    | object x' =>
      rw [Likeness.Like, recast_expr_object, recast_expr_object] at h
      exact starts _ _ rfl rfl (congrArg ObjectOf.span (Expr.object.inj h))
    | _ => simp [Likeness.Like] at h
  | string s =>
    cases e' with
    | string s' => exact congrArg StringLit.span (Expr.string.inj h)
    | _ => simp [Likeness.Like] at h
  | number n =>
    cases e' with
    | number n' => exact congrArg Located.span (Expr.number.inj h)
    | _ => simp [Likeness.Like] at h
  | ident x =>
    cases e' with
    | ident x' => exact congrArg Located.span (Expr.ident.inj h)
    | _ => simp [Likeness.Like] at h
  | discretion d =>
    cases e' with
    | discretion d' => exact congrArg Discretion.span (Expr.discretion.inj h)
    | _ => simp [Likeness.Like] at h

namespace Parser

private theorem isValid_of_primary {pipes : Bool} {e : Expr} {d : Cursor}
    (h : primary g pipes c = (.ok e, d)) : c.current.kind.isValid = true := by
  obtain ⟨kind, u, here, rest⟩ := bind_eq_ok h
  cases here
  cases hk : c.current.kind <;> rw [hk] at rest <;> first | rfl | cases rest

private theorem pipeStatement_echoes (hg : g.Echoing k) (pipes : Bool) (ha : a.ready = true) :
    Echoes k a .lax ((fun s ↦ [s]) <$> pipeStatement g pipes)
      ((fun s ↦ [s]) <$> pipeStatement g pipes) := by
  let ends (first : Span) (input : Expr) : Parser (List Statement) := do
    if ← atPipe pipes then return [.action (.pipe (← pipeTail g input first))]
    else throw ⟨.unexpected "a statement" input.describe, input.span⟩
  have reads (first first' : Span) (hfirst : k.Like first first') : Echoes k a .lax
      (primary g pipes >>= ends first) (primary g pipes >>= ends first') := by
    have known (input input' : Expr) (hinput : k.Like input input')
        (starts : k.Starts input.span input'.span) :
        Echoes k .lax .lax (ends first input) (ends first' input') := by
      refine (atPipe?_echoes pipes).bind fun opens opens' same ↦ ?_
      obtain rfl : opens = opens' := same
      cases opens with
      | true =>
        refine (pipeTail_echoes hg hinput hfirst).bind fun pipe pipe' like ↦ .pure ?_
        simp only [Likeness.Like, recast_action, recast_pipe] at like ⊢
        rw [like]
      | false =>
        have same : input.describe = input'.describe := by
          rw [← describe_recast_expr k.left, ← describe_recast_expr k.right input', hinput]
        refine .throw ?_
        rw [same]
        exact congrArg (ParseError.mk _) (hinput.span starts)
    refine Echoes.bind_known (primary_echoes hg pipes ha) ?_ (fun input c ↦ ?_) known
    · intro c c' input input' u u' abreast here there _ s s' hs hs'
      rw [primary_starts here] at hs
      rw [primary_starts there] at hs'
      exact (abreast.current ha).starts (isValid_of_primary here) s s' hs hs'
    · obtain ⟨input', hinput⟩ := k.exists_like input
      refine Echoes.passes_bind (atPipe?_echoes (k := k) pipes).passes (fun opens c ↦ ?_) c
      cases opens with
      | true =>
        exact Echoes.passes_bind (pipeTail_echoes hg hinput hfirst).passes (fun _ c ↦ .refl c) c
      | false => exact .refl c
  rw [map_pipeStatement]
  have whole := Echoes.first (fun first ↦ primary g pipes >>= ends first) reads ha
  exact whole

/-! ## Plain statements -/

private theorem importSkill_echoes : Echoes k a .level importSkill importSkill := by
  refine (keyword_echoes .import_).bind fun first first' hfirst ↦ ?_
  refine (string_echoes _).bind fun skill skill' hskill ↦
    (keyword_echoes .from_).bind fun f f' hf ↦ ?_
  refine (string_echoes _).bind fun source source' hsource ↦ .close rfl hfirst fun s s' extents ↦ ?_
  simp only [Likeness.Like, recast_import] at hskill hf hsource ⊢
  rw [hskill, hf, hsource, extents]

private theorem throwStatement_echoes : Echoes k a .level throwStatement throwStatement := by
  refine (keyword_echoes .throw).bind fun first first' hfirst ↦ ?_
  refine string_optional_echoes fun message message' hmessage ↦
    .close rfl hfirst fun s s' extents ↦ ?_
  simp only [Likeness.Like, recast_throwOf] at hmessage ⊢
  rw [hmessage, extents]

private theorem blockDefinition_echoes (hg : g.Echoing k) :
    Echoes k a .lax (blockDefinition g) (blockDefinition g) := by
  refine (keyword_echoes .block).bind fun first first' hfirst ↦ ?_
  refine (name_echoes _).bind fun name name' hname ↦ ?_
  refine (parenthesized?_echoes (fun _ ↦ name_forward _)
    ((name_echoes _).weaken (.refl _) Stage.level_covers_lax id)).bind
      fun params params' hparams ↦ ?_
  refine (block_echoes hg _).bind fun body body' hbody ↦ .close rfl hfirst fun s s' extents ↦ ?_
  simp only [Likeness.Like, recast_blockOf] at hname hparams hbody ⊢
  rw [hname, hparams, hbody, extents]

private theorem binding_echoes (hg : g.Echoing k) (pipes : Bool) (kind : BindingKind) :
    Echoes k a .lax (binding g pipes kind) (binding g pipes kind) := by
  refine (keyword_echoes kind.keyword).bind fun first first' hfirst ↦ ?_
  refine (name_echoes _).bind fun name name' hname ↦ (symbol_echoes _).bind fun _ _ _ ↦ ?_
  refine (value_echoes hg pipes rfl).bind fun value value' hvalue ↦
    .close rfl hfirst fun s s' extents ↦ ?_
  simp only [Likeness.Like, recast_bindingOf] at hname hvalue ⊢
  rw [hname, hvalue, extents]

private theorem assignment_echoes (hg : g.Echoing k) (pipes : Bool) :
    Echoes k a .lax (assignment g pipes) (assignment g pipes) := by
  refine (name_echoes _).bind fun name name' hname ↦ (symbol_echoes _).bind fun _ _ _ ↦ ?_
  refine (value_echoes hg pipes rfl).bind fun value value' hvalue ↦
    .close rfl (congrArg Located.span hname) fun s s' extents ↦ ?_
  simp only [Likeness.Like, recast_bindingOf] at hname hvalue ⊢
  rw [hname, hvalue, extents]

/-! ## Loops and parallel blocks -/

private theorem asBinding?_echoes : Echoes k .level .level asBinding? asBinding? := by
  refine (take?_echoes (.keyword .as_) rfl rfl).bind fun t t' ht ↦ ?_
  rcases t with _ | t <;> rcases t' with _ | t'
  · exact .pure rfl
  · cases ht
  · cases ht
  · refine (name_echoes _).bind fun name name' hname ↦ .pure (congrArg some ?_)
    have place := congrArg Token.span (Option.some.inj ht)
    simp only [recast_asBinding]
    exact congrArg₂ AsBinding.mk place hname

private theorem forEach_echoes (hg : g.Echoing k) (pipes : Bool)
    {parallelKeyword parallelKeyword' : Option Span}
    (hparallel : k.Like parallelKeyword parallelKeyword') :
    Echoes k a .lax (forEach g pipes parallelKeyword) (forEach g pipes parallelKeyword') := by
  refine (keyword_echoes .for_).bind fun forKeyword forKeyword' hfor ↦ ?_
  refine (name_echoes _).bind fun item item' hitem ↦ ?_
  have isParallel : parallelKeyword.isSome = parallelKeyword'.isSome := by
    have same := congrArg Option.isSome hparallel
    rwa [isSome_recast, isSome_recast] at same
  have hfirst : k.Like (parallelKeyword.getD forKeyword) (parallelKeyword'.getD forKeyword') := by
    rcases parallelKeyword with _ | s <;> rcases parallelKeyword' with _ | s'
    · exact hfor
    · cases hparallel
    · cases hparallel
    · exact Option.some.inj hparallel
  have rest (index index' : Option Ident) (hindex : k.Like index index') : Echoes k .level .lax
      (do
        let inKeyword ← keyword .in_
        let collection ← primary g pipes
        let body ← block g .forEachBlock
        return ({ item, index, collection, isParallel := parallelKeyword.isSome, forKeyword, inKeyword,
                  body, span := ← spanFrom (parallelKeyword.getD forKeyword) } : ForEach))
      (do
        let inKeyword ← keyword .in_
        let collection ← primary g pipes
        let body ← block g .forEachBlock
        return { item := item', index := index', collection, isParallel := parallelKeyword'.isSome,
                 forKeyword := forKeyword', inKeyword, body,
                 span := ← spanFrom (parallelKeyword'.getD forKeyword') }) := by
    refine (keyword_echoes .in_).bind fun inKeyword inKeyword' hin ↦ ?_
    refine (primary_echoes hg pipes rfl).bind fun collection collection' hcollection ↦ ?_
    refine (block_echoes hg _).bind fun body body' hbody ↦ .close rfl hfirst fun s s' extents ↦ ?_
    simp only [Likeness.Like, recast_forEachOf] at hitem hindex hcollection hfor hin hbody ⊢
    rw [hitem, hindex, hcollection, hfor, hin, hbody, extents, isParallel]
  refine (symbol?_echoes .comma).bind fun indexed indexed' same ↦ ?_
  obtain rfl : indexed = indexed' := same
  cases indexed with
  | true => exact ((name_echoes _).map fun _ _ like ↦ congrArg some like).bind rest
  | false => exact Echoes.bind (.pure rfl) rest

private theorem parallel_echoes (hg : g.Echoing k) (pipes : Bool) :
    Echoes k a .lax ((fun s ↦ [s]) <$> parallel g pipes) ((fun s ↦ [s]) <$> parallel g pipes) := by
  rw [parallel, map_bind]
  refine (keyword_echoes .parallel).bind fun first first' hfirst ↦ ?_
  rw [map_bind, map_bind]
  refine (at?_echoes (.keyword .for_) rfl rfl).bind fun loops loops' same ↦ ?_
  obtain rfl : loops = loops' := same
  cases loops with
  | true =>
    simp only [if_true, map_bind, map_pure]
    exact (forEach_echoes hg pipes (congrArg some hfirst)).bind fun f f' like ↦ .pure (by
      rw [Likeness.Like, recast_forEach, recast_forEach, like])
  | false =>
    simp only [Bool.false_eq_true, if_false, map_bind, map_pure]
    refine modifiers?_echoes.bind fun ms ms' hms ↦ ?_
    refine Echoes.bind (.lift (a := .level) ?_) fun p p' hp ↦
      (symbol_echoes .colon).bind fun _ _ _ ↦ ?_
    · rw [Likeness.Like, ← ParallelOf.withModifiers_recast, ← ParallelOf.withModifiers_recast, hms,
        recast_parallelOf, recast_parallelOf, k.extent_of_place hfirst]
      rfl
    · refine (blockBody?_echoes hg).bind fun body body' hbody ↦
        .close rfl hfirst fun s s' extents ↦ ?_
      obtain ⟨⟩ := p
      obtain ⟨⟩ := p'
      simp only [Likeness.Like, recast_parallel, recast_parallelOf, ParallelOf.mk.injEq]
        at hp hbody ⊢
      simp [hp, hbody, extents]

private theorem repeated_echoes (hg : g.Echoing k) : Echoes k a .lax (repeated g) (repeated g) := by
  refine (keyword_echoes .repeat_).bind fun first first' hfirst ↦ ?_
  refine (count_echoes _).bind fun count count' hcount ↦ asBinding?_echoes.bind fun i i' hindex ↦ ?_
  refine (block_echoes hg _).bind fun body body' hbody ↦ .close rfl hfirst fun s s' extents ↦ ?_
  simp only [Likeness.Like, recast_repeatOf] at hcount hindex hbody ⊢
  rw [hcount, hindex, hbody, extents]

private theorem loopCondition?_echoes : Echoes k .level .level loopCondition? loopCondition? := by
  have condition (kind : ConditionKind) (x : TokenKind) (hx : x.isPlain = true) :
      Echoes k (Stage.level.facing [x]) .level (some <$> loopCondition kind)
        (some <$> loopCondition kind) := by
    refine ((Echoes.take_plain [] hx).bind fun t t' ht ↦ ?_).map fun _ _ like ↦ congrArg some like
    refine (discretion_echoes _).bind fun d d' hd ↦ .pure ?_
    have place : k.Like t.span t'.span := congrArg Token.span ht
    simp only [Likeness.Like, recast_loopCondition] at place hd ⊢
    rw [place, hd]
  refine .peek rfl (fun x _ ↦ ?_) (fun _ _ _ ↦ .pure_of_covers rfl (Stage.level_facing_covers _))
    (fun _ _ ↦ .pure_of_covers rfl (Stage.level_facing_covers _))
  split
  · exact condition .until_ _ rfl
  · exact condition .while_ _ rfl
  · exact .pure_of_covers rfl (Stage.level_facing_covers _)

private theorem loop_echoes (hg : g.Echoing k) : Echoes k a .lax (loop g) (loop g) := by
  refine (keyword_echoes .loop).bind fun first first' hfirst ↦ ?_
  refine loopCondition?_echoes.bind fun condition condition' hcondition ↦ ?_
  refine asBinding?_echoes.bind fun index index' hindex ↦ modifiers?_echoes.bind fun ms ms' hms ↦ ?_
  refine Echoes.bind (.lift (a := .level) ?_) fun l l' hl ↦ ?_
  · rw [Likeness.Like, ← LoopOf.withModifiers_recast, ← LoopOf.withModifiers_recast, hms]
    simp only [Likeness.Like, recast_loopOf] at hcondition hindex ⊢
    rw [hcondition, hindex, k.extent_of_place hfirst]
    rfl
  · refine (block_echoes hg _).bind fun body body' hbody ↦ .close rfl hfirst fun s s' extents ↦ ?_
    obtain ⟨⟩ := l
    obtain ⟨⟩ := l'
    simp only [Likeness.Like, recast_loopOf, LoopOf.mk.injEq] at hl hbody ⊢
    simp [hl, hbody, extents]

/-! ## Blocks with clauses -/

/-- A clause may follow a block behind comments. -/
theorem clause?_echoes {α : Type} [Recastable α] (word : Keyword) {p p' : Span → Parser α}
    (hp : ∀ s s', k.Like s s' → Echoes k .level .lax (p s) (p' s')) :
    Echoes k .lax .lax (clause? word p) (clause? word p') := by
  let rest (p : Span → Parser α) : Parser (Option α) := do
    let first := (← take).span
    some <$> p first
  have reads : Echoes k ((Stage.fresh true).facing [.keyword word]) .lax (rest p) (rest p') :=
    (Echoes.take_plain [] rfl).bind fun _ _ like ↦
      (hp _ _ (congrArg Token.span like)).map fun _ _ like ↦ congrArg some like
  have run (p : Span → Parser α) (c : Cursor) : clause? word p c
      = if c.comesNext (.keyword word) then rest p c.skipComments else (.ok none, c) := by
    change (if c.comesNext (.keyword word) then (move Cursor.skipComments >>= fun _ ↦ rest p)
      else pure none : Parser (Option α)) c = _
    split <;> rfl
  refine ⟨fun c ↦ ?_, fun c c' abreast ↦ ?_⟩
  · change c.Passes (clause? word p c).2
    rw [run]
    split
    · exact (Cursor.Passes.skip c _).trans (reads.passes _)
    · exact .refl c
  · change Echoed k _ (clause? word p c) (clause? word p' c')
    rw [run, run, ← abreast.comesNext_eq word]
    split
    · next comes =>
      have faces := abreast.skipComments.facing_current
      rw [(Cursor.current_skipComments comes).1] at faces
      exact reads.echoed _ _ faces
    · exact .inr ⟨rfl, abreast⟩

private theorem body_echoes (hg : g.Echoing k) (construct : Construct) {first first' : Span}
    (hfirst : k.Like first first') : Echoes k .level .lax
      (do
        let body ← block g construct
        return ({ body, span := ← spanFrom first } : Body))
      (do
        let body ← block g construct
        return { body, span := ← spanFrom first' }) := by
  refine (block_echoes hg construct).bind fun body body' hbody ↦
    .close rfl hfirst fun s s' extents ↦ ?_
  simp only [Likeness.Like, recast_bodyOf] at hbody ⊢
  rw [hbody, extents]

private theorem handler_echoes (hg : g.Echoing k) {first first' : Span}
    (hfirst : k.Like first first') : Echoes k .level .lax
      (do
        let error ← asBinding?
        let body ← block g .catchClause
        return ({ error, body, span := ← spanFrom first } : Handler))
      (do
        let error ← asBinding?
        let body ← block g .catchClause
        return { error, body, span := ← spanFrom first' }) := by
  refine asBinding?_echoes.bind fun error error' herror ↦ ?_
  refine (block_echoes hg _).bind fun body body' hbody ↦ .close rfl hfirst fun s s' extents ↦ ?_
  simp only [Likeness.Like, recast_handlerOf] at herror hbody ⊢
  rw [herror, hbody, extents]

private theorem attempt_echoes (hg : g.Echoing k) : Echoes k a .lax (attempt g) (attempt g) := by
  refine (keyword_echoes .try_).bind fun first first' hfirst ↦ ?_
  refine (block_echoes hg _).bind fun body body' hbody ↦ ?_
  refine (clause?_echoes .catch_ fun _ _ ↦ handler_echoes hg).bind
    fun handler handler' hhandler ↦ ?_
  refine (clause?_echoes .finally_ fun _ _ ↦ body_echoes hg _).bind
    fun cleanup cleanup' hcleanup ↦ ?_
  have ends : Echoes k .lax .lax
      (do return ({ body, handler, cleanup, span := ← spanFrom first } : Try))
      (do return { body := body', handler := handler', cleanup := cleanup',
                   span := ← spanFrom first' }) := by
    refine .close rfl hfirst fun s s' extents ↦ ?_
    simp only [Likeness.Like, recast_tryOf] at hbody hhandler hcleanup ⊢
    rw [hbody, hhandler, hcleanup, extents]
  have none_iff : (handler.isNone && cleanup.isNone) = (handler'.isNone && cleanup'.isNone) := by
    rw [← isNone_recast k.left, ← isNone_recast k.left cleanup, hhandler, hcleanup, isNone_recast,
      isNone_recast]
  dsimp only
  rw [← none_iff]
  split
  · exact (Echoes.report (congrArg (ParseError.mk .missingHandler) hfirst)).bind fun _ _ _ ↦ ends
  · exact ends

private theorem choiceOption_echoes (hg : g.Echoing k) :
    Echoes k a .lax (choiceOption g) (choiceOption g) := by
  refine (keyword_echoes .option).bind fun first first' hfirst ↦ ?_
  refine (string_echoes _).bind fun label label' hlabel ↦ ?_
  refine (block_echoes hg _).bind fun body body' hbody ↦ .close rfl hfirst fun s s' extents ↦ ?_
  simp only [Likeness.Like, recast_optionOf] at hlabel hbody ⊢
  rw [hlabel, hbody, extents]

private theorem choiceRound_never_fails (g : Nested) : NeverFails (choiceRound g) := by
  refine .bind fun _ ↦ .bind fun c ↦ ?_
  split
  · exact .pure nofun
  · exact .pure nofun
  · exact .bind fun _ ↦ .pure nofun
  · exact .bind fun _ ↦ .pure nofun

/-- What the options of a choice go on with at a token. -/
def choiceTurn (g : Nested) (x : TokenKind) : StateM Cursor (List ChoiceOption × RoundEnd) := do
  match x with
  | .dedent | .endOfFile => return ([], .stop)
  | .keyword .option => return ((← recovering (choiceOption g)).toList, .again)
  | _ => return ((← recovering (unexpected "'option'")).toList, .again)

private theorem choiceRound_echoes (hg : g.Echoing k) :
    StepEchoes k (.loose true) (.round (.loose true) (.loose true)) (choiceRound g)
      (choiceRound g) := by
  have read {p : Parser ChoiceOption} (x : TokenKind)
      (h : Echoes k ((Stage.fresh true).facing [x]) .lax p p) :
      StepEchoes k ((Stage.fresh true).facing [x]) (.round (.loose true) (.loose true))
        (do return ((← recovering p).toList, .again))
          (do return ((← recovering p).toList, .again)) := by
    refine StepEchoes.bind (recovering_echoes h) (fun p p' like ↦ ?_) (by rintro _ _ ⟨⟩)
    refine .pure (congrArg (·, RoundEnd.again) (toList_like like)) ?_
    cases p <;> exact Stage.covers_loose_of_begun rfl true
  refine .move Cursor.Passes.skipBlanks (fun c c' abreast ↦ abreast.skipNewlines.skipComments)
    (.current (choiceTurn g) (choiceTurn g) rfl (fun x _ ↦ ?_)
      (fun l _ _ ↦ read (.string l) (.unexpected _)) fun t _ ↦ read (.comment t) (.unexpected _))
  simp only [choiceTurn]
  split
  · exact .pure rfl (Stage.covers_loose_of_begun rfl true)
  · exact .pure rfl (Stage.covers_loose_of_begun rfl true)
  · exact read _ (choiceOption_echoes hg)
  · exact read _ (.unexpected _)

private theorem choice_echoes (hg : g.Echoing k) : Echoes k a .lax (choice g) (choice g) := by
  refine (keyword_echoes .choice).bind fun first first' hfirst ↦ ?_
  refine (discretion_echoes _).bind fun criteria criteria' hcriteria ↦
    (symbol_echoes _).bind fun _ _ _ ↦ ?_
  refine .needsBlock .choiceBlock rfl ?_
  have options : Echoes k (.loose true) (.loose true) _ _ :=
    Echoes.gather (choiceRound_never_fails g).gathers
      (rounds_echoes recast_append (fun n ↦ (choiceRound_moves (hg.forward n)).mono (Nat.le_succ n))
        (choiceRound_echoes hg))
  refine .openBlock rfl (options.bind fun os os' hos ↦ ?_)
  refine (expect_break .dedent rfl (by simp) rfl).bind fun _ _ _ ↦ ?_
  have ends : Echoes k .lax .lax
      (do return ({ criteria, options := os, span := ← spanFrom first } : Choice))
      (do return { criteria := criteria', options := os', span := ← spanFrom first' }) := by
    refine .close rfl hfirst fun s s' extents ↦ ?_
    simp only [Likeness.Like, recast_choiceOf] at hcriteria hos ⊢
    rw [hcriteria, hos, extents]
  have empty : os.isEmpty = os'.isEmpty := by
    rw [← isEmpty_recast k.left, hos, isEmpty_recast]
  dsimp only
  rw [← empty]
  split
  · exact Echoes.bind (b := .lax) (.throw (congrArg (ParseError.mk _) hfirst)) fun _ _ _ ↦ ends
  · exact ends

private theorem branch_echoes (hg : g.Echoing k) (word : Keyword) :
    Echoes k a .lax (branch g word) (branch g word) := by
  refine (keyword_echoes word).bind fun first first' hfirst ↦ ?_
  refine (discretion_echoes _).bind fun condition condition' hcondition ↦ ?_
  refine (block_echoes hg _).bind fun body body' hbody ↦ .close rfl hfirst fun s s' extents ↦ ?_
  simp only [Likeness.Like, recast_branchOf] at hfirst hcondition hbody ⊢
  rw [hfirst, hcondition, hbody, extents]

private theorem conditional_echoes (hg : g.Echoing k) (ha : a.ready = true) :
    Echoes k a .lax (conditional g) (conditional g) := by
  have comes : Echoes k .lax .lax (do return (← cursor).comesNext (.keyword .elif) : Parser Bool)
      (do return (← cursor).comesNext (.keyword .elif)) :=
    ⟨fun c ↦ .refl c, fun _ _ abreast ↦ .inr
      ⟨congrArg Except.ok (abreast.comesNext_eq .elif), abreast⟩⟩
  have elif : Echoes k .lax .lax (do move Cursor.skipComments; branch g .elif)
      (do move Cursor.skipComments; branch g .elif) :=
    (Echoes.skipComments rfl).bind fun _ _ _ ↦ branch_echoes hg .elif
  let rest (first : Span) : Parser Conditional := do
    let start ← branch g .if_
    let more ← manyWhile (return (← cursor).comesNext (.keyword .elif)) do
      move Cursor.skipComments
      branch g .elif
    let otherwise ← clause? .else_ fun first ↦ do
      let body ← block g .elseClause
      return ({ body, span := ← spanFrom first } : Body)
    return { branches := start :: more, otherwise, span := ← spanFrom first }
  have reads (first first' : Span) (hfirst : k.Like first first') :
      Echoes k a .lax (rest first) (rest first') := by
    refine (branch_echoes hg .if_).bind fun start start' hstart ↦ ?_
    refine (manyWhile_echoes (fun _ ↦ comesNext_forward _)
      (fun n ↦ (elifBranch_forward (hg.forward n)).fewer) comes elif).bind fun more more' hmore ↦ ?_
    refine (clause?_echoes .else_ fun _ _ ↦ body_echoes hg _).bind
      fun otherwise otherwise' helse ↦ ?_
    refine .close rfl hfirst fun s s' extents ↦ ?_
    simp only [Likeness.Like, recast_conditionalOf, recast_cons] at hstart hmore helse ⊢
    rw [hstart, hmore, helse, extents]
  have whole := Echoes.first rest reads ha
  exact whole

/-! ## Any statement -/

/-- A statement that starts by looking at its first token, which may be a comment. -/
theorem peekStatement {f : TokenKind → Parser Statement} {begun : Bool}
    (exact : ∀ x, x.isExact = true → Echoes k ((Stage.fresh begun).facing [x]) .lax
      ((fun s ↦ [s]) <$> f x) ((fun s ↦ [s]) <$> f x))
    (string : ∀ l l', k.Like l l' → Echoes k ((Stage.fresh begun).facing [.string l]) .lax
      ((fun s ↦ [s]) <$> f (.string l)) ((fun s ↦ [s]) <$> f (.string l')))
    (comment : ∀ text, f (.comment text) = (do return .comment ⟨text, (← take).span⟩)) :
    Echoes k (.fresh begun) .lax ((fun s ↦ [s]) <$> (peek >>= f))
    ((fun s ↦ [s]) <$> (peek >>= f)) := by
  have run {c : Cursor} {text : String} (hk : c.current.kind = .comment text) :
      ((fun s ↦ [s]) <$> (peek >>= f) : Parser (List Statement)) c
        = (.ok [.comment ⟨text, c.current.span⟩], c.advance) := by
    rw [map_bind]
    change ((fun s ↦ [s]) <$> f c.current.kind : Parser (List Statement)) c = _
    rw [hk, comment]
    rfl
  have faces {x x' : TokenKind} (like : k.Like x x') (hx : x.isComment = false) :
      Echoes k ((Stage.fresh begun).facing [x]) .lax ((fun s ↦ [s]) <$> f x)
        ((fun s ↦ [s]) <$> f x') := by
    rcases like.cases with rfl | ⟨l, l', rfl, rfl, hl⟩ | ⟨text, text', rfl, rfl⟩
    · cases x with
      | string l => exact string l l (TokenKind.string.inj like)
      | comment => cases hx
      | _ => exact exact _ rfl
    · exact string l l' hl
    · cases hx
  refine ⟨fun c ↦ ?_, fun c c' abreast ↦ ?_⟩
  · rw [map_bind]
    change c.Passes (((fun s ↦ [s]) <$> f c.current.kind : Parser (List Statement)) c).2
    cases hx : c.current.kind.isComment with
    | false =>
      obtain ⟨x', like⟩ := k.exists_like c.current.kind
      exact (faces like hx).passes c
    | true =>
      cases hk : c.current.kind <;> rw [hk] at hx <;> first | cases hx; done | skip
      rw [comment]
      exact .advance c
  · have pair := abreast.current rfl
    cases hx : c.current.kind.isComment with
    | false =>
      rw [map_bind]
      exact (faces pair.kind hx).echoed c c' abreast.facing_current
    | true =>
      have hx' := pair.kind.isComment.symm.trans hx
      obtain ⟨text, hk⟩ : ∃ text, c.current.kind = .comment text := by
        cases hk : c.current.kind <;> rw [hk] at hx <;> first | exact ⟨_, rfl⟩ | cases hx
      obtain ⟨text', hk'⟩ : ∃ text, c'.current.kind = .comment text := by
        cases hk : c'.current.kind <;> rw [hk] at hx' <;> first | exact ⟨_, rfl⟩ | cases hx'
      have next := abreast.advance (abreast.ready rfl) (abreast.ne_nil (by rw [hk]; nofun))
      rw [hk] at next
      change Echoed k _ (((fun s ↦ [s]) <$> (peek >>= f) : Parser (List Statement)) c)
        (((fun s ↦ [s]) <$> (peek >>= f) : Parser (List Statement)) c')
      rw [run hk, run hk']
      exact .inr ⟨congrArg Except.ok (pair.comment text text' hk hk'),
        next.mono ⟨nofun, fun _ ↦ rfl, fun _ ↦ Bool.or_eq_true_iff.2 (.inr rfl), List.nil_prefix⟩⟩

private theorem oneStatement_echoes (hg : g.Echoing k) (pipes begun : Bool) :
    Echoes k (.fresh begun) .lax ((fun s ↦ [s]) <$> oneStatement g pipes)
      ((fun s ↦ [s]) <$> oneStatement g pipes) := by
  have one {a : Stage} {α : Type} [Recastable α] {p : Parser α} (h : Echoes k a .lax p p)
      (f : α → Statement) (hf : ∀ x x', k.Like x x' → k.Like [f x] [f x']) :
      Echoes k a .lax ((fun s ↦ [s]) <$> (f <$> p)) ((fun s ↦ [s]) <$> (f <$> p)) := by
    rw [Functor.map_map]
    exact h.map hf
  have action {x x' : Action} (like : k.Like x x') : k.Like [Statement.action x] [.action x'] := by
    rw [Likeness.Like, recast_action, recast_action, like]
  have binding {x x' : Binding} (kind : BindingKind) (like : k.Like x x') :
      k.Like [Statement.binding kind x] [.binding kind x'] := by
    rw [Likeness.Like, recast_binding, recast_binding, like]
  refine peekStatement (fun x exact ↦ ?_) (fun _ _ _ ↦ pipeStatement_echoes hg pipes rfl)
    fun _ ↦ rfl
  split
  · cases exact
  · exact one (importSkill_echoes.weaken (.refl _) Stage.level_covers_lax id) _ fun _ _ like ↦ by
      rw [Likeness.Like, recast_importSkill, recast_importSkill, like]
  · rw [map_bind]
    exact (agent_echoes hg pipes).bind fun _ _ like ↦ .pure (by
      rw [Likeness.Like, recast_agent, recast_agent, like])
  · exact one (blockDefinition_echoes hg) _ fun _ _ like ↦ by
      rw [Likeness.Like, recast_block, recast_block, like]
  · exact one (binding_echoes hg pipes _) _ fun _ _ ↦ binding _
  · exact one (binding_echoes hg pipes _) _ fun _ _ ↦ binding _
  · exact one (doAction_echoes hg pipes) _ fun _ _ ↦ action
  · exact parallel_echoes hg pipes
  · exact one (repeated_echoes hg) _ fun _ _ like ↦ by
      rw [Likeness.Like, recast_repeated, recast_repeated, like]
  · exact one (forEach_echoes hg pipes rfl) _ fun _ _ like ↦ by
      rw [Likeness.Like, recast_forEach, recast_forEach, like]
  · exact one (loop_echoes hg) _ fun _ _ like ↦
      by rw [Likeness.Like, recast_loop, recast_loop, like]
  · exact one (attempt_echoes hg) _ fun _ _ like ↦ by
      rw [Likeness.Like, recast_attempt, recast_attempt, like]
  · exact one (throwStatement_echoes.weaken (.refl _) Stage.level_covers_lax id) _ fun _ _ like ↦ by
      rw [Likeness.Like, recast_throw, recast_throw, like]
  · exact one (choice_echoes hg) _ fun _ _ like ↦ by
      rw [Likeness.Like, recast_choice, recast_choice, like]
  · exact one (conditional_echoes hg rfl) _ fun _ _ like ↦ by
      rw [Likeness.Like, recast_conditional, recast_conditional, like]
  · next word =>
    rw [map_bind]
    refine .peekNext rfl rfl (by simp) fun y y' like ↦ ?_
    have stray (x : TokenKind) : Echoes k ((Stage.fresh begun).facing [.identifier word, x]) .lax
        ((fun s ↦ [s]) <$> (do throw ⟨.strayProperty word, (← cursor).current.span⟩ : Parser
          Statement))
        ((fun s ↦ [s]) <$> (do throw ⟨.strayProperty word, (← cursor).current.span⟩)) := by
      exact Echoes.first (a := (Stage.fresh begun).facing [.identifier word, x])
        (fun s ↦ (throw ⟨.strayProperty word, s⟩ : Parser (List Statement)))
        (fun s s' like ↦ .throw (congrArg (ParseError.mk _) like)) rfl
    rcases like.cases with rfl | ⟨l, l', rfl, rfl, -⟩ | ⟨text, text', rfl, rfl⟩
    · split
      · exact one (assignment_echoes hg pipes) _ fun _ _ like ↦ by
          rw [Likeness.Like, recast_assignment, recast_assignment, like]
      · exact stray _
      · exact pipeStatement_echoes hg pipes rfl
    · exact pipeStatement_echoes hg pipes rfl
    · exact pipeStatement_echoes hg pipes rfl
  · cases exact
  · exact pipeStatement_echoes hg pipes rfl
  · exact pipeStatement_echoes hg pipes rfl
  · exact pipeStatement_echoes hg pipes rfl
  · exact pipeStatement_echoes hg pipes rfl
  · exact .unexpected _

/-! ## Sequences of sessions -/

/-- What is known after an arrow that may be there or not. -/
def afterArrow (begun : Bool) : Outcome (Except ParseError (Option Token)) where
  stage
    | .ok (some _) => .level
    | .ok none => .lax
    | .error _ => .loose begun
  fault
    | .ok _ => none
    | .error e => some e

private theorem arrow_echoes (begun : Bool) : StepEchoes k .lax (afterArrow begun)
    (take? (.symbol .arrow)).run (take? (.symbol .arrow)).run := by
  refine ⟨fun c ↦ ?_, fun c c' abreast ↦ ?_⟩
  · change c.Passes (take? (.symbol .arrow) c).2
    rw [take?_apply]
    split
    · exact .advance c
    · exact .refl c
  · have same := abreast.mark_iff (.inl rfl)
    change Echoed k _ (take? (.symbol .arrow) c) (take? (.symbol .arrow) c')
    rw [take?_apply, take?_apply]
    by_cases hk : c.current.kind = .symbol .arrow
    · rw [if_pos hk, if_pos (same.1 hk)]
      have faces := abreast.facing_current
      rw [hk] at faces
      have ready := Abreast.ready_of_ahead faces rfl rfl
      have level : Abreast k .level c c' := { abreast with ready := fun _ ↦ ready }
      have pair := level.current rfl
      have next := abreast.advance ready (abreast.ne_nil (by rw [hk]; nofun))
      rw [hk] at next
      exact .inr ⟨congrArg (Except.ok ∘ some) (congrArg₂ Token.mk pair.kind pair.span), next⟩
    · rw [if_neg hk, if_neg (mt same.2 hk)]
      exact .inr ⟨rfl, abreast⟩

/-- What follows an arrow is another session. -/
theorem afterArrow_echoes (begun : Bool) {read read' : List Statement} (hread : k.Like read read') :
    StepEchoes k .level (.round (.fresh begun) .lax)
      (do
        let next := (← get).current
        if next.kind = .keyword .session then return (read, .again)
        let error := .unexpected "'session' after '->'" next.kind.describe
        return (read, .fail ⟨error, next.span⟩))
      (do
        let next := (← get).current
        if next.kind = .keyword .session then return (read', .again)
        let error := .unexpected "'session' after '->'" next.kind.describe
        return (read', .fail ⟨error, next.span⟩)) := by
  let result (read : List Statement) (next : Token) : List Statement × RoundEnd :=
    if next.kind = .keyword .session then (read, .again)
    else (read, .fail ⟨.unexpected "'session' after '->'" next.kind.describe, next.span⟩)
  have run (read : List Statement) (c : Cursor) : (do
      let next := (← get).current
      if next.kind = .keyword .session then return (read, .again)
      let error := .unexpected "'session' after '->'" next.kind.describe
      return (read, .fail ⟨error, next.span⟩) : StateM Cursor (List Statement × RoundEnd)) c
        = (result read c.current, c) := by
    change (if c.current.kind = .keyword .session then pure (read, .again) else pure (read, .fail
      ⟨.unexpected "'session' after '->'" c.current.kind.describe, c.current.span⟩)
      : StateM Cursor (List Statement × RoundEnd)) c = _
    dsimp only [result]
    split <;> rfl
  refine ⟨fun c ↦ ?_, fun c c' abreast ↦ ?_⟩
  · rw [run]
    exact .refl c
  · rw [run, run]
    have pair := abreast.current rfl
    have same := pair.kind.eq_iff (.keyword .session) rfl
    dsimp only [result]
    by_cases hk : c.current.kind = .keyword .session
    · rw [if_pos hk, if_pos (same.1 hk)]
      exact .inr ⟨congrArg (·, RoundEnd.again) hread, abreast.mono (Stage.level_covers_fresh begun)⟩
    · rw [if_neg hk, if_neg (mt same.2 hk), pair.kind.describe]
      exact .inr ⟨congrArg₂ (fun read e ↦ (read, RoundEnd.fail e)) hread
        (congrArg (ParseError.mk _) pair.span),
          abreast.mono (Stage.covers_loose_of_begun rfl begun)⟩

/-- A session may be the input of a pipe. -/
theorem afterSession_echoes (hg : g.Echoing k) (pipes begun : Bool) {session session' : Session}
    (hs : k.Like session session') {first first' : Span} (hfirst : k.Like first first') :
    StepEchoes k .lax (.round (.fresh begun) .lax)
      (do
        if pipes && (← get).current.kind = .symbol .pipe then
          match ← (pipeTail g (.action (.session session)) first).run with
          | .ok p => return ([Statement.action (.pipe p)], .stop)
          | .error e => return ([], .fail e)
        else return ([.action (.session session)], .stop))
      (do
        if pipes && (← get).current.kind = .symbol .pipe then
          match ← (pipeTail g (.action (.session session')) first').run with
          | .ok p => return ([Statement.action (.pipe p)], .stop)
          | .error e => return ([], .fail e)
        else return ([.action (.session session')], .stop)) := by
  have input : k.Like (Expr.action (.session session)) (.action (.session session')) := by
    rw [Likeness.Like, recast_expr_action, recast_expr_action, recast_session, recast_session, hs]
  let tail (session : Session) (first : Span) : StateM Cursor (List Statement × RoundEnd) := do
    match ← (pipeTail g (.action (.session session)) first).run with
    | .ok p => return ([Statement.action (.pipe p)], .stop)
    | .error e => return ([], .fail e)
  have tails : StepEchoes k .lax (.round (.fresh begun) .lax) (tail session first)
      (tail session' first') := by
    refine StepEchoes.bind (pipeTail_echoes hg input hfirst) (fun r r' like ↦ ?_)
      fun r e failed harms c _ ↦ ?_
    · rcases r with e | p <;> rcases r' with e' | p'
      · exact StepEchoes.pure (congrArg (([], RoundEnd.fail ·)) (Except.error.inj like))
          (Stage.covers_loose_of_begun rfl begun)
      · cases like
      · cases like
      · have read : k.Like [Statement.action (.pipe p)] [.action (.pipe p')] := by
          have same : recast k.left p = recast k.right p' := Except.ok.inj like
          rw [Likeness.Like, recast_action, recast_action, recast_pipe, recast_pipe, same]
        exact .pure (congrArg (·, RoundEnd.stop) read) (.refl _)
    · rcases r with e' | p <;> cases failed
      exact ⟨e, .inr rfl, harms⟩
  have alone : StepEchoes k .lax (.round (.fresh begun) .lax)
      (pure ([Statement.action (.session session)], .stop))
      (pure ([Statement.action (.session session')], .stop)) := by
    have read : k.Like [Statement.action (.session session)] [.action (.session session')] := by
      rw [Likeness.Like, recast_action, recast_action, recast_session, recast_session, hs]
    exact .pure (congrArg (·, RoundEnd.stop) read) (.refl _)
  refine ⟨fun c ↦ ?_, fun c c' abreast ↦ ?_⟩
  · change c.Passes ((if pipes && decide (c.current.kind = .symbol .pipe) then tail session first
      else pure ([.action (.session session)], .stop) : StateM Cursor _) c).2
    split
    · exact tails.passes c
    · exact alone.passes c
  · change Echoed k _ ((if pipes && decide (c.current.kind = .symbol .pipe) then tail session first
      else pure ([.action (.session session)], .stop) : StateM Cursor _) c)
      ((if pipes && decide (c'.current.kind = .symbol .pipe) then tail session' first'
      else pure ([.action (.session session')], .stop) : StateM Cursor _) c')
    have same : decide (c.current.kind = .symbol .pipe)
      = decide (c'.current.kind = .symbol .pipe) :=
      decide_eq_decide.2 (abreast.mark_iff (.inr ⟨rfl, rfl⟩))
    rw [← same]
    split
    · exact tails.echoed c c' abreast
    · exact alone.echoed c c' abreast

/-- A round of a sequence of sessions that starts at a place. -/
def sessionRoundFrom (g : Nested) (pipes : Bool) (first : Span) :
    StateM Cursor (List Statement × RoundEnd) := do
  match ← (session g pipes).run with
  | .error e => return ([], .fail e)
  | .ok s =>
    match ← (take? (.symbol .arrow)).run with
    | .error e => return ([], .fail e)
    | .ok (some arrow) =>
      let read := [Statement.action (.session { s with arrow := some arrow.span })]
      let next := (← get).current
      if next.kind = .keyword .session then return (read, .again)
      let error := .unexpected "'session' after '->'" next.kind.describe
      return (read, .fail ⟨error, next.span⟩)
    | .ok none =>
      if pipes && (← get).current.kind = .symbol .pipe then
        match ← (pipeTail g (.action (.session s)) first).run with
        | .ok p => return ([.action (.pipe p)], .stop)
        | .error e => return ([], .fail e)
      else return ([.action (.session s)], .stop)

private theorem sessionRound_echoes (hg : g.Echoing k) (pipes begun : Bool) :
    StepEchoes k (.fresh begun) (.round (.fresh begun) .lax) (sessionRound g pipes)
      (sessionRound g pipes) := by
  have errors {o : Outcome (List Statement × RoundEnd)} {b : Stage} {e e' : ParseError}
      (like : k.Like e e') (hb : b.Covers (o.stage ([], .fail e))) :
      StepEchoes k b o (pure ([], .fail e)) (pure ([], .fail e')) :=
    .pure (congrArg (([], RoundEnd.fail ·)) like) hb
  have reads (first first' : Span) (hfirst : k.Like first first') :
      StepEchoes k (.fresh begun) (.round (.fresh begun) .lax) (sessionRoundFrom g pipes first)
        (sessionRoundFrom g pipes first') := by
    refine StepEchoes.bind (session_echoes hg pipes)
      (fun r r' like ↦ ?_) fun r e failed harms c _ ↦ ?_
    · rcases r with e | s <;> rcases r' with e' | s'
      · exact errors (Except.error.inj like) (.refl _)
      · cases like
      · cases like
      · have hs : k.Like s s' := Except.ok.inj like
        refine StepEchoes.bind (arrow_echoes begun)
          (fun r r' like ↦ ?_) fun r e failed harms c _ ↦ ?_
        · rcases r with e | _ | arrow <;> rcases r' with e' | _ | arrow'
          · exact errors (Except.error.inj like) (.refl _)
          · cases like
          · cases like
          · cases like
          · exact afterSession_echoes hg pipes begun hs hfirst
          · cases like
          · cases like
          · cases like
          · refine afterArrow_echoes begun ?_
            have place : k.left.place arrow.span = k.right.place arrow'.span :=
              congrArg Token.span (Option.some.inj (Except.ok.inj like))
            obtain ⟨⟩ := s
            obtain ⟨⟩ := s'
            simp only [Likeness.Like, recast_action, recast_session, recast_sessionOf,
              SessionOf.mk.injEq] at hs ⊢
            simp [hs]
            exact place
        · rcases r with e' | x <;> cases failed
          exact ⟨e, .inr rfl, harms⟩
    · rcases r with e' | x <;> cases failed
      exact ⟨e, .inr rfl, harms⟩
  refine ⟨fun c ↦ ?_, fun c c' abreast ↦ ?_⟩
  · obtain ⟨s', like⟩ := k.exists_like c.current.span
    exact (reads _ s' like).passes c
  · exact (reads _ _ (abreast.current rfl).span).echoed c c' abreast

private theorem statement_echoes (hg : g.Echoing k) (pipes begun : Bool) :
    StepEchoes k (.fresh begun) (.loop (.fresh begun) .lax) (statement g pipes)
      (statement g pipes) := by
  have advances : Advances (sessionRound g pipes) := fun n ↦
    ((sessionRound_moves (hg.forward n) pipes).mono (Nat.le_succ n)).imp fun r ↦ by
      rcases r with ⟨_, _ | _ | _⟩ <;> simp [RoundEnd.takes]
  have sessions := rounds_echoes recast_append advances (sessionRound_echoes hg pipes begun)
  have one := oneStatement_echoes hg pipes begun
  refine ⟨fun c ↦ ?_, fun c c' abreast ↦ ?_⟩
  · rw [statement_apply]
    split
    · exact sessions.passes c
    · exact one.passes c
  · have same := (abreast.current rfl).kind.eq_iff (.keyword .session) rfl
    rw [statement_apply, statement_apply]
    by_cases hk : c.current.kind = .keyword .session
    · rw [if_pos hk, if_pos (same.1 hk)]
      exact sessions.echoed c c' abreast
    · rw [if_neg hk, if_neg (mt same.2 hk)]
      refine (one.echoed c c' abreast).imp (fun r r' like ↦ ?_) (fun r ↦ ?_) fun r e he ↦ ?_
      · rcases r with e | read <;> rcases r' with e' | read'
        · exact congrArg (([], some ·)) (Except.error.inj like)
        · cases like
        · cases like
        · exact congrArg (·, none) (Except.ok.inj like)
      · rcases r with e | read <;> exact .refl _
      · rcases r with e' | read <;> cases he
        rfl

end Parser

/-! ## Everything that is nested -/

namespace Nested

private theorem Forward.fewer {n : Nat} {g' : Nested} (hg : g.Forward (n + 1) g') :
    g.Forward n g' where
  value pipes := (hg.value pipes).fewer
  statement pipes := (hg.statement pipes).mono (Nat.le_succ n)
  properties pipes := (hg.properties pipes).fewer

private theorem Echoing.deeper (hg : g.Echoing k) : g.deeper.Echoing k where
  forward n := (hg.forward n).deeper.fewer
  value pipes := Parser.value_echoes hg pipes rfl
  statement := Parser.statement_echoes hg
  properties pipes _ ha := Parser.propertyBlock_echoes hg pipes ha
  comment pipes c text hk := by
    have one : Parser.oneStatement g pipes c
        = (.ok (.comment ⟨text, c.current.span⟩), c.advance) := by
      refine (Parser.bind_apply (p := Parser.peek) (d := c) rfl).trans ?_
      rw [hk]
      rfl
    left
    change Parser.statement g pipes c = _
    rw [Parser.statement, if_neg (by simp [hk]), one]

/-- Parsers of constructs that are nested to any depth come to the same. -/
theorem upTo_echoing (k : Likeness) (depth : Nat) : (upTo depth).Echoing k := by
  induction depth with
  | zero =>
    have fails (expected : String) (n : Nat) {α : Type} :
        ProseLang.Forward n 1 (Parser.unexpected expected : Parser α)
          (Parser.unexpected expected) :=
      .unexpected expected
    refine ⟨fun n ↦ ⟨fun _ ↦ fails _ n, fun _ c _ ↦
      ⟨rfl, .refl c, Nat.le_refl _⟩, fun _ ↦ fails _ n⟩,
      fun _ ↦ .unexpected _, fun _ begun ↦ ⟨fun c ↦ .refl c, fun c c' abreast ↦ ?_⟩,
      fun _ _ _ ↦ .unexpected _, fun _ _ _ _ ↦ .inr ⟨_, rfl⟩⟩
    have pair := abreast.current rfl
    refine .inr ⟨?_, abreast.mono (Stage.covers_loose _)⟩
    change k.Like (([] : List Statement), some (ParseError.mk (.unexpected "a statement"
        c.current.kind.describe) c.current.span)) ([], some ⟨.unexpected "a statement"
        c'.current.kind.describe, c'.current.span⟩)
    rw [pair.kind.describe]
    exact congrArg (fun s ↦ (([] : List Statement), some (ParseError.mk _ s))) pair.span
  | succ depth ih => exact ih.deeper

end Nested

/-! ## Streams -/

/-- Parsers that nest more constructs than there are tokens read all the same. -/
theorem readAll_of_lt {depth m : Nat} (hfinal : c.final.kind = .endOfFile)
    (h : c.rest.length < depth) (h' : c.rest.length < m) : readAll depth c = readAll m c := by
  have forward : (Nested.upTo depth).Forward (c.rest.length + 1) (Nested.upTo m) := by
    rw [Nested.upTo_eq_atop depth, Nested.upTo_eq_atop m]
    exact Nested.atop_forward _ _ h h'
  exact (rounds_moves (Nat.zero_le 1) (Parser.statementRound_moves false (forward.statement true)) c
    ⟨hfinal, Nat.lt_succ_self _⟩).same

/-- Streams that are alike are read alike, unless an error names a comment. -/
theorem Abreast.readAll {begun : Bool} (h : Abreast k (.loose begun) c c') :
    (∃ e ∈ (readAll (c.rest.length + 1) c).2.errors, k.Harms e)
      ∨ k.Like (readAll (c.rest.length + 1) c).1.1 (readAll (c'.rest.length + 1) c').1.1
        ∧ Abreast k (.loose begun) (readAll (c.rest.length + 1) c).2
          (readAll (c'.rest.length + 1) c').2 := by
  let depth := max c.rest.length c'.rest.length + 1
  have never : NeverFails (Parser.statementRound ((Nested.upTo depth).statement true) false) :=
    Parser.statementRound_ne_fail _ false
  rw [readAll_of_lt (m := depth) h.final_kind (Nat.lt_succ_self _) (by omega),
    readAll_of_lt (m := depth) h.final_kind' (Nat.lt_succ_self _) (by omega)]
  rcases (Parser.statements_echoes (Nested.upTo_echoing k depth) true false begun).echoed c
    c' h with
    ⟨e, known | failed, harms⟩ | ⟨like, next⟩
  · exact .inl ⟨e, known, harms⟩
  · exact absurd (failed.symm.trans (never.gathers c)) nofun
  · exact .inr ⟨congrArg Prod.fst like, by simpa [Outcome.loop, never.gathers] using next⟩

end ProseLang
