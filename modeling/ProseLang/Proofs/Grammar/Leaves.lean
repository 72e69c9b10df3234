import ProseLang.Proofs.Grammar.Coverage
import ProseLang.Proofs.Grammar.ValueLeaves

/-!
# Where the leaves of a program come from

Statements are read as faithfully as values are (`oneStatement_gives`, `statement_finds`), and the
depth of nesting is the induction that ties the productions together (`Nested.faithful_upTo`). So
every leaf of a program is one of its tokens, and every statement outside of blocks starts with one
(`isRead_parseTokens`).
-/

namespace ProseLang

variable {ts : List Token} {c : Cursor} {g : Nested}

namespace Parser

private theorem importSkill_gives :
    Gives ts (fun i ↦ (Statement.importSkill i).Has (Leaf.IsRead ts)) importSkill := by
  refine (keyword_gives _).bind fun first _ ↦ (string_gives _).bind fun skill hskill ↦ ?_
  refine (keyword_gives _).bind fun fromKeyword hfrom ↦
    (string_gives _).bind fun source hsource ↦ ?_
  exact .spanFrom fun _ ↦ .pure (has_importSkill.2 ⟨hfrom, hskill, hsource⟩)

private theorem throwStatement_gives :
    Gives ts (fun t ↦ (Statement.throw t).Has (Leaf.IsRead ts)) throwStatement := by
  refine (keyword_gives _).bind fun first _ ↦ ?_
  refine .peek fun c hc ↦ string_optional hc fun message hmessage ↦ ?_
  exact .spanFrom fun _ ↦ .pure (has_throw.2 hmessage)

private theorem asBinding?_gives :
    Gives ts (fun r ↦ ∀ b ∈ r, b.Has (Leaf.IsRead ts)) asBinding? := by
  refine (take?_gives (.keyword .as_) rfl).bind fun r hr ↦ ?_
  split
  · next t =>
    refine (name_gives _).bind fun name hname ↦ .pure ?_
    rintro _ ⟨⟩
    rcases t with ⟨kind, span⟩
    obtain ⟨rfl, member⟩ := hr _ rfl
    exact ⟨member, hname⟩
  · exact .pure nofun

private theorem loopCondition?_gives :
    Gives ts (fun r ↦ ∀ c ∈ r, Leaf.IsRead ts (.keyword c.kind.keyword c.keyword)
      ∧ Leaf.IsRead ts (.discretion c.discretion)) loopCondition? := by
  have condition (kind : ConditionKind) (c : Cursor) (hc : c.Within ts)
      (hk : c.current.kind = .keyword kind.keyword) :
      GivesAt ts c (fun r ↦ ∀ c ∈ r, Leaf.IsRead ts (.keyword c.kind.keyword c.keyword)
        ∧ Leaf.IsRead ts (.discretion c.discretion)) (some <$> loopCondition kind) := by
    rw [map_eq_pure_bind]
    refine GivesAt.bind (P := fun c ↦ Leaf.IsRead ts (.keyword c.kind.keyword c.keyword)
      ∧ Leaf.IsRead ts (.discretion c.discretion)) ?_ ?_
    · refine Gives.take_at hc (by rw [hk]; rfl) fun _ ↦ ?_
      refine (discretion_gives _).bind fun discretion hdiscretion ↦ .pure ⟨?_, hdiscretion⟩
      exact hc.mem_of_kind hk rfl
    · intro x hx
      refine .pure ?_
      rintro _ ⟨⟩
      exact hx
  refine .peek fun c hc ↦ ?_
  split
  · next hk => exact condition .until_ c hc hk
  · next hk => exact condition .while_ c hc hk
  · exact Gives.pure nofun c hc

/-- A clause that may follow a block. -/
theorem clause?_gives {α : Type} {P : α → Prop} (word : Keyword) {p : Span → Parser α}
    (hp : ∀ first, Gives ts P (p first)) : Gives ts (fun r ↦ ∀ x ∈ r, P x) (clause? word p) := by
  refine .cursor fun c ↦ ?_
  split
  · refine .move (fun c hc ↦ hc.skipComments) (.take fun t ↦ (hp t.span).map ?_)
    rintro x hx _ ⟨⟩
    exact hx
  · exact .pure nofun

section Nested

variable (hg : g.Faithful ts) (pipes : Bool)
include hg

private theorem blockDefinition_gives :
    Gives ts (fun b ↦ (Statement.block b).Has (Leaf.IsRead ts)) (blockDefinition g) := by
  refine (keyword_gives _).bind fun first _ ↦ (name_gives _).bind fun name hname ↦ ?_
  refine (parenthesized?_gives (name_gives _)).bind fun params hparams ↦ ?_
  refine (block_gives hg _).bind fun body hbody ↦ ?_
  exact .spanFrom fun _ ↦ .pure (has_block.2 ⟨⟨hname, hparams⟩, hbody⟩)

private theorem binding_gives (kind : BindingKind) :
    Gives ts (fun b ↦ (Statement.binding kind b).Has (Leaf.IsRead ts)) (binding g pipes kind) := by
  refine (keyword_gives _).bind fun first _ ↦ (name_gives _).bind fun name hname ↦ ?_
  refine (symbol_gives _).bind fun _ _ ↦ (value_gives hg pipes).bind fun value hvalue ↦ ?_
  exact .spanFrom fun _ ↦ .pure (has_binding.2 ⟨hname, hvalue⟩)

private theorem assignment_gives :
    Gives ts (fun a ↦ (Statement.assignment a).Has (Leaf.IsRead ts)) (assignment g pipes) := by
  refine (name_gives _).bind fun name hname ↦ (symbol_gives _).bind fun _ _ ↦ ?_
  refine (value_gives hg pipes).bind fun value hvalue ↦ ?_
  exact .spanFrom fun _ ↦ .pure (has_assignment.2 ⟨hname, hvalue⟩)

private theorem forEach_gives (parallelKeyword : Option Span) :
    Gives ts (fun f ↦ (Statement.forEach f).Has (Leaf.IsRead ts))
      (forEach g pipes parallelKeyword) := by
  refine (keyword_gives _).bind fun forKeyword hfor ↦ (name_gives _).bind fun item hitem ↦ ?_
  refine (symbol?_gives _).bind fun b _ ↦ ?_
  have rest {p : Parser (Option Ident)}
      (hp : Gives ts (fun x ↦ ∀ y ∈ x, Leaf.IsRead ts (.name y)) p) :
      Gives ts (fun f ↦ (Statement.forEach f).Has (Leaf.IsRead ts)) (do
        let index ← p
        let inKeyword ← keyword .in_
        let collection ← primary g pipes
        let body ← block g .forEachBlock
        return { item, index, collection, isParallel := parallelKeyword.isSome, forKeyword, inKeyword,
                 body, span := ← spanFrom (parallelKeyword.getD forKeyword) }) := by
    refine hp.bind fun index hindex ↦ (keyword_gives _).bind fun inKeyword hin ↦ ?_
    refine (primary_gives hg pipes).bind fun collection hcollection ↦ ?_
    refine (block_gives hg _).bind fun body hbody ↦ ?_
    exact .spanFrom fun _ ↦ .pure
      (has_forEach.2 ⟨⟨hfor, hin, hitem, hindex⟩, hcollection, hbody⟩)
  split
  · refine rest ((name_gives _).map ?_)
    rintro x hx _ ⟨⟩
    exact hx
  · exact rest (.pure nofun)

private theorem parallel_gives : Gives ts (fun s ↦ s.Has (Leaf.IsRead ts)) (parallel g pipes) := by
  refine (keyword_gives _).bind fun first _ ↦ .at? fun b ↦ ?_
  split
  · exact (forEach_gives hg pipes _).bind fun _ h ↦ .pure h
  · refine modifiers?_gives.bind fun ms hms ↦ ?_
    have empty : (Statement.parallel
        { join := none, onFail := none, count := none, keys := [], body := [], span := first }).Has
          (Leaf.IsRead ts) := has_parallel.2 ⟨⟨nofun, nofun, nofun, nofun⟩, nofun⟩
    refine Gives.bind (P := fun p ↦ (Statement.parallel p).Has (Leaf.IsRead ts)) (.lift fun _ run ↦
      foldlM_keeps (f := ParallelOf.withModifier) (Q := fun p ↦ (Statement.parallel p).Has _)
        (fun _ _ _ ↦ parallel_withModifier_has settable_isRead) empty hms run) fun p hp ↦ ?_
    refine (symbol_gives _).bind fun _ _ ↦ (blockBody?_gives hg).bind fun body hbody ↦ ?_
    exact .spanFrom fun _ ↦ .pure (has_parallel.2 ⟨(has_parallel.1 hp).1, hbody⟩)

private theorem repeated_gives :
    Gives ts (fun r ↦ (Statement.repeated r).Has (Leaf.IsRead ts)) (repeated g) := by
  refine (keyword_gives _).bind fun first _ ↦ (count_gives _).bind fun count hcount ↦ ?_
  refine asBinding?_gives.bind fun index hindex ↦ (block_gives hg _).bind fun body hbody ↦ ?_
  exact .spanFrom fun _ ↦ .pure (has_repeated.2 ⟨⟨hcount, hindex⟩, hbody⟩)

private theorem loop_gives : Gives ts (fun l ↦ (Statement.loop l).Has (Leaf.IsRead ts))
    (loop g) := by
  refine (keyword_gives _).bind fun first _ ↦
    loopCondition?_gives.bind fun condition hcondition ↦ ?_
  refine asBinding?_gives.bind fun index hindex ↦ modifiers?_gives.bind fun ms hms ↦ ?_
  have empty : (Statement.loop
      { condition, maxIterations := none, index, keys := [], body := [], span := first }).Has
        (Leaf.IsRead ts) := has_loop.2 ⟨hcondition, ⟨nofun, hindex, nofun⟩, nofun⟩
  refine Gives.bind (P := fun l ↦ (Statement.loop l).Has (Leaf.IsRead ts)) (.lift fun _ run ↦
    foldlM_keeps (f := LoopOf.withModifier) (Q := fun l ↦ (Statement.loop l).Has _)
      (fun _ _ _ ↦ loop_withModifier_has settable_isRead) empty hms run) fun l hl ↦ ?_
  refine (block_gives hg _).bind fun body hbody ↦ .spanFrom fun _ ↦ .pure ?_
  obtain ⟨condition, header, -⟩ := has_loop.1 hl
  exact has_loop.2 ⟨condition, header, hbody⟩

private theorem attempt_gives :
    Gives ts (fun t ↦ (Statement.attempt t).Has (Leaf.IsRead ts)) (attempt g) := by
  refine (keyword_gives _).bind fun first _ ↦ (block_gives hg _).bind fun body hbody ↦ ?_
  have handler (first : Span) : Gives ts
      (fun h : Handler ↦ (∀ b ∈ h.error, b.Has (Leaf.IsRead ts))
        ∧ BodyHas (Leaf.IsRead ts) h.body) (do
        let error ← asBinding?
        let body ← block g .catchClause
        return ({ error, body, span := ← spanFrom first } : Handler)) := by
    refine asBinding?_gives.bind fun error herror ↦ (block_gives hg _).bind fun body hbody ↦ ?_
    exact .spanFrom fun _ ↦ .pure ⟨herror, hbody⟩
  have cleanup (first : Span) : Gives ts (fun x : Body ↦ BodyHas (Leaf.IsRead ts) x.body) (do
        let body ← block g .finallyClause
        return ({ body, span := ← spanFrom first } : Body)) :=
    (block_gives hg _).bind fun body hbody ↦ .spanFrom fun _ ↦ .pure hbody
  refine (clause?_gives .catch_ handler).bind fun handler hhandler ↦ ?_
  refine (clause?_gives .finally_ cleanup).bind fun cleanup hcleanup ↦ ?_
  have whole : ∀ span, (Statement.attempt ⟨body, handler, cleanup, span⟩).Has (Leaf.IsRead ts) :=
    fun _ ↦ has_attempt.2
      ⟨fun h hh ↦ (hhandler h hh).1, hbody, fun h hh ↦ (hhandler h hh).2, hcleanup⟩
  dsimp only
  split
  · exact .move (fun c hc ↦ hc.report _) (.spanFrom fun span ↦ .pure (whole span))
  · exact .spanFrom fun span ↦ .pure (whole span)

private theorem choiceOption_gives :
    Gives ts (fun o ↦ Leaf.IsRead ts (.string o.label) ∧ BodyHas (Leaf.IsRead ts) o.body)
      (choiceOption g) := by
  refine (keyword_gives _).bind fun first _ ↦ (string_gives _).bind fun label hlabel ↦ ?_
  refine (block_gives hg _).bind fun body hbody ↦ ?_
  exact .spanFrom fun _ ↦ .pure ⟨hlabel, hbody⟩

private theorem choiceRound_finds :
    Finds ts (fun r ↦ ∀ o ∈ r.1, Leaf.IsRead ts (.string o.label) ∧ BodyHas (Leaf.IsRead ts) o.body)
      (choiceRound g) := by
  have round {p : Parser ChoiceOption} (hp : Gives ts
      (fun o ↦ Leaf.IsRead ts (.string o.label) ∧ BodyHas (Leaf.IsRead ts) o.body) p) :
      Finds ts (fun r : List ChoiceOption × RoundEnd ↦ ∀ o ∈ r.1,
        Leaf.IsRead ts (.string o.label) ∧ BodyHas (Leaf.IsRead ts) o.body)
        (do return ((← recovering p).toList, .again)) :=
    (recovering_finds hp).bind fun r hr ↦ .pure fun o ho ↦ hr o (Option.mem_toList.1 ho)
  refine .move (fun c hc ↦ hc.skipNewlines.skipComments) (.cursor fun c ↦ ?_)
  split
  · exact .pure nofun
  · exact .pure nofun
  · exact round (choiceOption_gives hg)
  · exact round (.unexpected _)

private theorem choice_gives :
    Gives ts (fun c ↦ (Statement.choice c).Has (Leaf.IsRead ts)) (choice g) := by
  refine (keyword_gives _).bind fun first _ ↦ (discretion_gives _).bind fun criteria hcriteria ↦ ?_
  refine (symbol_gives _).bind fun _ _ ↦ .cursor fun c ↦ ?_
  have rest {gathered : Parser (List ChoiceOption)}
      (h : Gives ts (fun options ↦ ∀ o ∈ options,
        Leaf.IsRead ts (.string o.label) ∧ BodyHas (Leaf.IsRead ts) o.body) gathered) :
      Gives ts (fun c ↦ (Statement.choice c).Has (Leaf.IsRead ts)) (do
        let _ ← take
        let _ ← take
        let options ← gathered
        let _ ← expect .dedent
        if options.isEmpty then
          throw ⟨.unexpected "at least one 'option'" "an empty choice block", first⟩
        return { criteria, options, span := ← spanFrom first }) := by
    refine .take fun _ ↦ .take fun _ ↦ ?_
    refine Gives.bind h fun options hoptions ↦ ?_
    refine (expect_layout _).bind fun _ _ ↦ ?_
    dsimp only
    split
    · exact Gives.bind (P := fun _ ↦ True) (.throw _) fun _ _ ↦
        .spanFrom fun _ ↦ .pure (has_choice.2 ⟨hcriteria, hoptions⟩)
    · exact .spanFrom fun _ ↦ .pure (has_choice.2 ⟨hcriteria, hoptions⟩)
  have options := rest (.gather (rounds_finds (choiceRound_finds hg)))
  dsimp only
  split
  · exact Gives.bind (P := fun _ ↦ True) (.missingBlock _) fun _ _ ↦ options
  · exact options

private theorem branch_gives (word : Keyword) :
    Gives ts (fun b ↦ Leaf.IsRead ts (.keyword word b.keyword)
      ∧ Leaf.IsRead ts (.discretion b.condition) ∧ BodyHas (Leaf.IsRead ts) b.body)
      (branch g word) := by
  refine (keyword_gives _).bind fun keyword hkeyword ↦ ?_
  refine (discretion_gives _).bind fun condition hcondition ↦ ?_
  refine (block_gives hg _).bind fun body hbody ↦ ?_
  exact .spanFrom fun _ ↦ .pure ⟨hkeyword, hcondition, hbody⟩

private theorem conditional_gives :
    Gives ts (fun c ↦ (Statement.conditional c).Has (Leaf.IsRead ts)) (conditional g) := by
  refine .cursor fun c ↦ (branch_gives hg .if_).bind fun start hstart ↦ ?_
  have comes : Gives ts (fun _ ↦ True) (do return (← cursor).comesNext (.keyword .elif)) :=
    .cursor fun _ ↦ .pure trivial
  refine (manyWhile_gives comes
    (.move (fun c hc ↦ hc.skipComments) (branch_gives hg .elif))).bind fun more hmore ↦ ?_
  have otherwise (first : Span) : Gives ts (fun x : Body ↦ BodyHas (Leaf.IsRead ts) x.body) (do
        let body ← block g .elseClause
        return ({ body, span := ← spanFrom first } : Body)) :=
    (block_gives hg _).bind fun body hbody ↦ .spanFrom fun _ ↦ .pure hbody
  refine (clause?_gives .else_ otherwise).bind fun otherwise hotherwise ↦ ?_
  refine .spanFrom fun _ ↦ .pure (has_conditional.2 ⟨⟨?_, nofun⟩, ?_, hotherwise⟩)
  · refine List.forall_mem_cons.2 ⟨hstart.1, List.forall_mem_map.2 ?_⟩
    exact List.forall_mem_map.2 fun b hb ↦ (hmore b hb).1
  · exact List.forall_mem_cons.2 ⟨hstart.2, fun b hb ↦ (hmore b hb).2⟩

private theorem pipeStatement_gives :
    Gives ts (fun s ↦ s.Has (Leaf.IsRead ts)) (pipeStatement g pipes) := by
  refine .cursor fun c ↦ (primary_gives hg pipes).bind fun input hinput ↦ ?_
  refine (atPipe_gives pipes).bind fun b _ ↦ ?_
  split
  · exact (pipeTail_gives hg hinput _).bind fun p hp ↦ .pure (has_statement_action.2 hp)
  · exact .throw _

private theorem oneStatement_gives :
    Gives ts (fun s ↦ s.Has (Leaf.IsRead ts)) (oneStatement g pipes) := by
  refine .peek fun c hc ↦ ?_
  have pipe : GivesAt ts c (fun s ↦ s.Has (Leaf.IsRead ts)) (pipeStatement g pipes) :=
    pipeStatement_gives hg pipes c hc
  split
  · next text hk =>
    refine Gives.take_at hc (by rw [hk]; rfl) fun _ ↦ .pure (has_comment.2 ?_)
    exact hc.mem_of_kind hk rfl
  · exact importSkill_gives.map (fun _ h ↦ h) c hc
  · exact (agent_gives hg pipes).bind (fun _ h ↦ .pure (has_agent.2 h)) c hc
  · exact (blockDefinition_gives hg).map (fun _ h ↦ h) c hc
  · exact (binding_gives hg pipes _).map (fun _ h ↦ h) c hc
  · exact (binding_gives hg pipes _).map (fun _ h ↦ h) c hc
  · exact (doAction_gives hg pipes).map (fun _ ↦ has_statement_action.2) c hc
  · exact parallel_gives hg pipes c hc
  · exact (repeated_gives hg).map (fun _ h ↦ h) c hc
  · exact (forEach_gives hg pipes _).map (fun _ h ↦ h) c hc
  · exact (loop_gives hg).map (fun _ h ↦ h) c hc
  · exact (attempt_gives hg).map (fun _ h ↦ h) c hc
  · exact throwStatement_gives.map (fun _ h ↦ h) c hc
  · exact (choice_gives hg).map (fun _ h ↦ h) c hc
  · exact (conditional_gives hg).map (fun _ h ↦ h) c hc
  · refine Gives.peekNext (fun next ↦ ?_) c hc
    split
    · exact (assignment_gives hg pipes).map fun _ h ↦ h
    · exact .cursor fun c ↦ .throw _
    · exact pipeStatement_gives hg pipes
  · exact pipe
  · exact pipe
  · exact pipe
  · exact pipe
  · exact pipe
  · exact Gives.unexpected _ c hc

omit hg in
/-- There is a token where a statement is read. -/
theorem visible_of_oneStatement {s : Statement} {d : Cursor}
    (h : oneStatement g pipes c = (.ok s, d)) : c.current.kind.isLayout = false := by
  obtain ⟨kind, a, here, rest⟩ := bind_eq_ok h
  cases here
  cases hk : c.current.kind with
  | newline | indent | dedent | endOfFile =>
    rw [hk] at rest
    cases rest
  | _ => rfl

/-- One session of a sequence, with the arrow after it or the pipe that it goes into. -/
theorem sessionRound_finds :
    Finds ts (fun r ↦ ∀ s ∈ r.1, s.IsRead ts) (sessionRound g pipes) := by
  intro c hc
  obtain ⟨within, found⟩ := session_gives hg pipes c hc
  refine FindsAt.bind (m := get) (x := c) (d := c) rfl ?_
  rcases run : session g pipes c with ⟨e | s, a⟩
  all_goals
    refine .bind (show (session g pipes).run c = _ from run) ?_
    rw [run] at within found
  · exact ⟨within, fun _ hs ↦ absurd hs List.not_mem_nil⟩
  have member : c.current ∈ ts := hc.current (by rw [kind_of_session run]; rfl)
  have read {s' : Session} (hs : s'.Has (Leaf.IsRead ts)) (span : s'.span = s.span) :
      (Statement.action (.session s')).IsRead ts := by
    refine ⟨has_statement_action.2 (has_session.2 hs), c.current, member, ?_⟩
    have taken : s.span = ⟨c.current.span.start, a.lastEnd⟩ := session_spans pipes s a run
    rw [Statement.span, Action.span, span, taken]
  refine Finds.bind (.of_gives (take?_gives (.symbol .arrow) rfl)) (fun r hr ↦ ?_) a within
  rcases r with e | _ | arrow
  · exact .pure fun _ hs ↦ absurd hs List.not_mem_nil
  · refine .cursor fun d ↦ ?_
    split
    · have input : (Expr.action (.session s)).Has (Leaf.IsRead ts) :=
        has_expr_action.2 (has_session.2 (found s rfl))
      intro b hb
      obtain ⟨within, piped⟩ := pipeTail_gives hg input c.current.span b hb
      rcases tail : pipeTail g (.action (.session s)) c.current.span b with ⟨e | p, d⟩
      all_goals
        refine .bind (show (pipeTail g _ c.current.span).run b = _ from tail) ?_
        rw [tail] at within piped
      · exact ⟨within, fun _ hs ↦ absurd hs List.not_mem_nil⟩
      · have spans : p.span = ⟨c.current.span.start, d.lastEnd⟩ := pipeTail_spans _ _ b p d tail
        refine ⟨within, List.forall_mem_singleton.2 ⟨has_statement_action.2 (piped p rfl), ?_⟩⟩
        refine ⟨c.current, member, ?_⟩
        rw [Statement.span, Action.span, spans]
    · exact .pure (List.forall_mem_singleton.2 (read (found s rfl) rfl))
  · obtain ⟨hk, member⟩ := hr _ rfl arrow rfl
    have arrows : SessionOf.Has (Leaf.IsRead ts) { s with arrow := some arrow.span } := by
      refine { found s rfl with arrow := ?_ }
      rintro _ ⟨⟩
      rw [Leaf.IsRead, ← hk]
      exact member
    have first : ∀ s' ∈ [Statement.action (.session { s with arrow := some arrow.span })],
        s'.IsRead ts := List.forall_mem_singleton.2 (read arrows rfl)
    refine .cursor fun d ↦ ?_
    dsimp only
    split
    · exact .pure first
    · exact .pure first

private theorem statement_finds : Finds ts (fun r ↦ ∀ s ∈ r.1, s.IsRead ts)
    (statement g pipes) := by
  intro c hc
  rw [FindsAt, statement]
  split
  · exact rounds_finds (sessionRound_finds hg pipes) c hc
  · obtain ⟨within, found⟩ := oneStatement_gives hg pipes c hc
    rcases run : oneStatement g pipes c with ⟨e | s, d⟩
    · rw [run] at within
      exact ⟨within, fun _ hs ↦ absurd hs List.not_mem_nil⟩
    · rw [run] at within found
      have visible := visible_of_oneStatement pipes run
      have starts : s.StartsAt ts := by
        refine ⟨c.current, hc.current visible, ?_⟩
        rw [oneStatement_spans pipes (hc.ne_nil visible) s d run]
      exact ⟨within, List.forall_mem_singleton.2 ⟨found s rfl, starts⟩⟩

end Nested

end Parser

/-- The parsers of nested constructs are faithful at every depth. -/
theorem Nested.faithful_upTo (depth : Nat) : (Nested.upTo depth).Faithful ts := by
  induction depth with
  | zero =>
    constructor
    · exact fun _ ↦ .unexpected _
    · exact fun _ c hc ↦ ⟨hc, nofun⟩
    · exact fun _ ↦ .unexpected _
  | succ depth ih =>
    constructor
    · exact Parser.value_gives ih
    · exact Parser.statement_finds ih
    · exact Parser.propertyBlock_gives ih

/-- The cursor at the start of some tokens is among them. -/
theorem within_ofTokens (ts : List Token) : (Cursor.ofTokens ts).Within (visible ts) where
  ahead t ht visible :=
    mem_visible.2 ⟨(List.takeWhile_prefix _).subset ht, visible⟩
  final := by
    cases found : ts.find? (·.kind = .endOfFile) with
    | none => simp [Cursor.ofTokens, found, TokenKind.isLayout]
    | some t =>
      have isEnd : t.kind = .endOfFile := by simpa using List.find?_some found
      simp [Cursor.ofTokens, found, isEnd, TokenKind.isLayout]

/-- Every statement of a program is read from its tokens, whatever they are. -/
theorem isRead_parseTokens (ts : List Token) :
    ∀ s ∈ (parseTokens ts).program.statements, s.IsRead (visible ts) := by
  have among : visible (withoutTrailingComments none ts) ⊆ visible ts :=
    ((withoutTrailingComments_sublist none ts).filter _).subset
  have start := (within_ofTokens (withoutTrailingComments none ts)).mono among
  exact (Parser.statements_finds false ((Nested.faithful_upTo _).statement true) _ start).2

/-- Every leaf of a program is one of its tokens, whatever they are. -/
theorem leaves_parseTokens (ts : List Token) :
    ∀ l ∈ (parseTokens ts).program.leaves, l.IsRead (visible ts) := by
  have read : BodyHas (Leaf.IsRead (visible ts)) (parseTokens ts).program.statements :=
    fun s hs ↦ (isRead_parseTokens ts s hs).1
  intro l hl
  obtain ⟨v, hv, member⟩ := List.mem_flatMap.1 hl
  exact ((forall_bodyVisits _).2 read v hv).1 l member

end ProseLang
