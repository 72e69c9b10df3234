import ProseLang.Proofs.Grammar.Locality
import ProseLang.Proofs.Grammar.ValueAccounts
import ProseLang.Proofs.Program.Visits

/-!
# What programs are made from

Statements are read like values without losing anything, and what a construct cannot do without is
there or an error is recorded (`oneStatement_takes`, `statement_takes`). The depth of nesting is the
induction that ties the productions together (`Nested.making_upTo`).
-/

namespace ProseLang

variable {clean : Prop} {ts : List Token} {c : Cursor} {g : Nested}

/-- Whether statements are made from tokens to which some words belong, and there is code among
them. Before an error something may be missing. -/
structure Sequenced (clean : Prop) (ts : List Token) (error : Option ParseError)
    (words : List Token) (read : List Statement) : Prop where
  made : Made (clean ∧ error = none) ts (bodyVisits everywhere read) words
  code : error = none → hasCode read = true

namespace Sequenced

variable {words later : List Token} {read more : List Statement} {error : Option ParseError}

private theorem append (h : Sequenced clean ts none words read)
    (h' : Sequenced clean ts error later more) :
    Sequenced clean ts error (words ++ later) (read ++ more) where
  made := by
    rw [bodyVisits_append]
    exact (h.made.weaken fun ⟨c, _⟩ ↦ ⟨c, rfl⟩).append h'.made
  code _ := by rw [hasCode_append, h.code rfl, Bool.true_or]

private theorem of_action {a : Action} (h : Made clean ts ((Expr.action a).visits everywhere)
    words) : Sequenced clean ts none words [.action a] where
  made := (Full.statement (s := .action a) (.of_made h) trivial fun _ ↦ rfl).weaken And.left
  code _ := rfl

private theorem of_error {e : ParseError}
    (written : ∀ v ∈ bodyVisits everywhere read, v.IsWritten ts) :
    Sequenced clean ts (some e) words read :=
  ⟨.of_not written fun h ↦ Option.some_ne_none e h.2, nofun⟩

end Sequenced

namespace Parser

/-- Whatever is read is read somewhere in the stream. -/
theorem accounts_read {α : Type} {P : List Token → α → Prop} {p : Parser α}
    (h : Accounts clean ts P p) {Q : List Token → α → Prop}
    (hQ : ∀ words x c d, c.On clean ts → p c = (.ok x, d) → P words x → Q words x) :
    Accounts clean ts Q p := fun c hc ↦
  ⟨(h c hc).passes, fun record taken rest x hx ↦
    hQ _ x c _ hc (Prod.ext hx rfl) ((h c hc).gives record taken rest x hx)⟩

private theorem importSkill_accounts :
    Accounts clean ts (fun words i ↦ Made clean ts (bodyVisits everywhere [.importSkill i]) words)
      importSkill := by
  refine .skip (keyword_idle _ rfl) fun first ↦ .skip (string_idle _) fun skill ↦ ?_
  refine .skip (keyword_idle _ rfl) fun from_ ↦ .skip (string_idle _) fun source ↦ ?_
  refine .spanFrom fun _ ↦ .pure (Full.statement (.of_made ?_) trivial fun _ ↦ rfl)
  exact .cons trivial (fun _ ↦ rfl) (.cons trivial (fun _ ↦ rfl) .nil)

private theorem throwStatement_accounts :
    Accounts clean ts (fun words t ↦ Made clean ts (bodyVisits everywhere [.throw t]) words)
      throwStatement := by
  refine .skip (keyword_idle _ rfl) fun first ↦ .peek fun c hc ↦ ?_
  refine string_optional_accounts hc fun message ↦ .spanFrom fun _ ↦ .pure ?_
  exact Full.statement (.of_made (.strings message)) trivial fun _ ↦ rfl

private theorem asBinding?_idle : Idle clean ts asBinding? := by
  refine .skip (take?_idle _ nofun rfl) fun r ↦ ?_
  split
  · exact .skip (name_idle _) fun _ ↦ .pure rfl
  · exact .pure rfl

private theorem loopCondition?_idle : Idle clean ts loopCondition? := by
  refine .peek fun c hc ↦ ?_
  have condition {word : Keyword} (kind : ConditionKind) (hk : c.current.kind = .keyword word)
      (idle : (TokenKind.keyword word).isHost = false) :
      IdleAt clean c (some <$> loopCondition kind) := by
    rw [map_eq_pure_bind]
    refine AccountsAt.bind (P := fun words _ ↦ words = []) hc
      (.take hc hk nofun idle (.skip (discretion_idle _) fun _ ↦ .pure rfl)) fun _ ↦ .pure ?_
    rintro _ rfl
    rfl
  split
  · next hk => exact condition .until_ hk rfl
  · next hk => exact condition .while_ hk rfl
  · exact .of hc (.pure rfl)

/-- A clause that may follow a block, with a body of its own. -/
theorem clause?_accounts {α : Type} (word : Keyword)
    (idle : (TokenKind.keyword word).isHost = false)
    {p : Span → Parser α} {visits : Option α → List Visit} {b : α → List Statement}
    (none : visits none = []) (some : ∀ x, visits (some x) = bodyVisits everywhere (b x))
    (hp : ∀ first, Accounts clean ts (fun words x ↦ FullBody clean ts words (b x)) (p first)) :
    Accounts clean ts (fun words x ↦ Full clean ts words (visits x) (x.toList.map b))
      (clause? word p) := by
  refine .cursor fun c hc ↦ ?_
  split
  · next comes =>
    have hk := (Cursor.current_skipComments comes).1
    have passes : c.Passes c.skipComments := .skip c _
    refine .move passes Cursor.hosts_of_skipComments ?_
    refine .take (hc.passes passes) hk nofun idle (.map (hp _) fun words x full ↦ ?_)
    rw [some]
    exact full
  · refine .of hc (.pure ?_)
    rw [none]
    exact .nil

/-! ## Blocks and loops -/

section Nested

variable (hg : g.Making clean ts) (laid : LaidOut ts) (pipes : Bool)
include hg laid

private theorem blockDefinition_accounts :
    Accounts clean ts (fun words b ↦ Made clean ts (bodyVisits everywhere [.block b]) words)
      (blockDefinition g) := by
  refine .skip (keyword_idle _ rfl) fun first ↦ .skip (name_idle _) fun name ↦ ?_
  refine .skip (parenthesized?_idle (name_idle _)) fun params ↦ ?_
  exact (block_accounts hg laid _).close fun _ _ _ full ↦ full.statement trivial fun _ ↦ rfl

/-- A value behind a name and a sign of equality. -/
theorem binding_accounts (kind : BindingKind) :
    Accounts clean ts (fun words b ↦ Made clean ts (bodyVisits everywhere [.binding kind b]) words)
      (binding g pipes kind) := by
  refine .skip (keyword_idle _ (by cases kind <;> rfl)) fun first ↦
    .skip (name_idle _) fun name ↦ ?_
  refine .skip (symbol_idle _) fun _ ↦ ?_
  exact (value_accounts hg laid pipes).close fun _ _ _ made ↦
    Full.statement (.of_made made) trivial fun _ ↦ rfl

private theorem assignment_accounts :
    Accounts clean ts (fun words b ↦ Made clean ts (bodyVisits everywhere [.assignment b]) words)
      (assignment g pipes) := by
  refine .skip (name_idle _) fun name ↦ .skip (symbol_idle _) fun _ ↦ ?_
  exact (value_accounts hg laid pipes).close fun _ _ _ made ↦
    Full.statement (.of_made made) trivial fun _ ↦ rfl

private theorem forEach_accounts (word : Option Span) :
    Accounts clean ts (fun words f ↦ Made clean ts (bodyVisits everywhere [.forEach f]) words)
      (forEach g pipes word) := by
  refine .skip (keyword_idle _ rfl) fun first ↦ .skip (name_idle _) fun item ↦ ?_
  refine .skip (symbol?_idle _) fun b ↦ ?_
  have rest (index : Option Ident) :
      Accounts clean ts (fun words f ↦ Made clean ts (bodyVisits everywhere [.forEach f]) words) (do
        let inKeyword ← keyword .in_
        let collection ← primary g pipes
        let body ← block g .forEachBlock
        return { item, index, collection, isParallel := word.isSome, forKeyword := first, inKeyword,
                 body, span := ← spanFrom (word.getD first) }) := by
    refine .skip (keyword_idle _ rfl) fun _ ↦
      (primary_accounts hg laid pipes).bind fun collection ↦ ?_
    refine (block_accounts hg laid _).close fun later body span full words made ↦ ?_
    exact Full.statement (.append (.of_made made) full) trivial fun _ ↦ rfl
  split
  · exact .skip (name_idle _).map rest
  · exact rest none

private theorem parallel_accounts :
    Accounts clean ts (fun words s ↦ Made clean ts (bodyVisits everywhere [s]) words
      ∧ s.isComment = false) (parallel g pipes) := by
  have read : Accounts clean ts (fun words s ↦ (∃ f, s = .forEach f
      ∧ Made clean ts (bodyVisits everywhere [s]) words) ∨ ∃ p : Parallel, s = .parallel p
      ∧ Made clean ts (bodyVisits everywhere p.body) words) (parallel g pipes) := by
    refine .skip (keyword_idle _ rfl) fun first ↦ .at? fun b ↦ ?_
    split
    · exact (forEach_accounts hg laid pipes _).last fun _ f made ↦ .inl ⟨f, rfl, made⟩
    · refine .skip modifiers?_idle fun ms ↦ .skip (.lift fun _ _ ↦ rfl) fun p ↦ ?_
      refine .skip (symbol_idle _) fun _ ↦ ?_
      exact (blockBody?_accounts hg laid).close fun _ _ _ made ↦ .inr ⟨_, rfl, made⟩
  refine accounts_read read fun words s c d hc run made ↦ ?_
  rcases made with ⟨f, rfl, made⟩ | ⟨p, rfl, made⟩
  · exact ⟨made, rfl⟩
  · obtain ⟨first, ms, a, header, starts, taken⟩ := parallel_header g pipes run
    have written : p.IsWritten ts := ⟨first, ms, hc.readIn header, starts, taken⟩
    exact ⟨Full.statement (.of_made made) written fun _ ↦ rfl, rfl⟩

private theorem repeated_accounts :
    Accounts clean ts (fun words r ↦ Made clean ts (bodyVisits everywhere [.repeated r]) words)
      (repeated g) := by
  refine .skip (keyword_idle _ rfl) fun first ↦ .skip (count_idle _) fun count ↦ ?_
  refine .skip asBinding?_idle fun index ↦ ?_
  exact (block_accounts hg laid _).close fun _ _ _ full ↦ full.statement trivial fun _ ↦ rfl

private theorem loop_accounts :
    Accounts clean ts (fun words l ↦ Made clean ts (bodyVisits everywhere [.loop l]) words)
      (loop g) := by
  have read : Accounts clean ts (fun words l ↦ FullBody clean ts words l.body) (loop g) := by
    refine .skip (keyword_idle _ rfl) fun first ↦ .skip loopCondition?_idle fun condition ↦ ?_
    refine .skip asBinding?_idle fun index ↦ .skip modifiers?_idle fun ms ↦ ?_
    exact .skip (.lift fun _ _ ↦ rfl) fun l ↦ (block_accounts hg laid _).close fun _ _ _ full ↦ full
  refine accounts_read read fun words l c d hc run full ↦ ?_
  obtain ⟨first, ms, a, header, starts, taken⟩ := loop_header g run
  have condition : Made clean ts (l.condition.map fun c ↦
    Visit.discretion c.discretion).toList [] := by
    cases l.condition with
    | none => exact .nil
    | some c => exact .cons trivial (fun _ ↦ rfl) .nil
  have written : l.IsWritten ts := ⟨first, ms, hc.readIn header, starts, taken⟩
  exact Full.statement (Full.append (.of_made condition) full) written fun _ ↦ rfl

/-! ## Clauses and choices -/

private theorem catchClause_accounts :
    Accounts clean ts
      (fun words h ↦ Full clean ts words (handlerVisits everywhere h) (h.toList.map HandlerOf.body))
      (clause? .catch_ fun first ↦ do
        let error ← asBinding?
        let body ← block g .catchClause
        return ({ error, body, span := ← spanFrom first } : Handler)) :=
  clause?_accounts .catch_ rfl rfl (fun _ ↦ rfl) fun _ ↦
    .skip asBinding?_idle fun _ ↦ (block_accounts hg laid _).close fun _ _ _ full ↦ full

private theorem lastClause_accounts (word : Keyword)
    (idle : (TokenKind.keyword word).isHost = false) (construct : Construct) :
    Accounts clean ts
      (fun words x ↦ Full clean ts words (clauseVisits everywhere x) (x.toList.map BodyOf.body))
      (clause? word fun first ↦ do
        let body ← block g construct
        return ({ body, span := ← spanFrom first } : Body)) :=
  clause?_accounts word idle rfl (fun _ ↦ rfl) fun _ ↦
    (block_accounts hg laid _).close fun _ _ _ full ↦ full

/-- A `try` without a clause is an error on record. -/
theorem attempt_accounts :
    Accounts clean ts (fun words t ↦ Made clean ts (bodyVisits everywhere [.attempt t]) words)
      (attempt g) := by
  refine .skip (keyword_idle _ rfl) fun first ↦ (block_accounts hg laid _).bind fun body ↦ ?_
  refine (catchClause_accounts hg laid).bind fun handler ↦ ?_
  refine (lastClause_accounts hg laid .finally_ rfl .finallyClause).bind fun cleanup ↦ ?_
  have close : Accounts clean ts (fun last t ↦ (clean → (handler.isSome || cleanup.isSome) = true) →
      ∀ later, Full clean ts later (clauseVisits everywhere cleanup)
        (cleanup.toList.map BodyOf.body) →
      ∀ words, Full clean ts words (handlerVisits everywhere handler)
        (handler.toList.map HandlerOf.body) →
      ∀ start, FullBody clean ts start body →
        Made clean ts (bodyVisits everywhere [.attempt t]) (start ++ (words ++ (later ++ last))))
      (do return { body, handler, cleanup, span := ← spanFrom first }) := by
    refine .spanFrom fun span ↦ .pure fun filled later cleanup words handler start body ↦ ?_
    rw [List.append_nil, ← List.append_assoc]
    exact ((body.append handler).append cleanup).statement trivial filled
  dsimp only
  split
  · exact .report (close.imp fun last t made unclean ↦ made fun hclean ↦ absurd hclean unclean)
  · next some =>
    refine close.imp fun last t made ↦ made fun _ ↦ ?_
    rw [← Bool.not_eq_false]
    simpa using some

private theorem choiceOption_accounts :
    Accounts clean ts (fun words o ↦ Full clean ts words (optionVisits everywhere [o]) [o.body])
      (choiceOption g) := by
  refine .skip (keyword_idle _ rfl) fun first ↦ .skip (string_idle _) fun label ↦ ?_
  refine (block_accounts hg laid _).close fun words body span full ↦ ?_
  rw [optionVisits, optionVisits, List.append_nil]
  exact full.cons trivial rfl

private theorem choiceRound_accounts :
    StepAccounts clean ts
      (fun words r ↦ Full clean ts words (optionVisits everywhere r.1) (r.1.map OptionOf.body))
      (choiceRound g) := by
  have round {p : Parser ChoiceOption} (hp : Accounts clean ts
      (fun words o ↦ Full clean ts words (optionVisits everywhere [o]) [o.body]) p) :
      StepAccounts clean ts (fun words (r : List ChoiceOption × RoundEnd) ↦
        Full clean ts words (optionVisits everywhere r.1) (r.1.map OptionOf.body))
        (do return ((← recovering p).toList, .again)) := by
    refine .bind (recovering_accounts hp) fun r ↦ .pure fun words ⟨read, unclean⟩ ↦ ?_
    rw [List.append_nil]
    cases r with
    | none => exact ⟨.of_not nofun (unclean rfl), fun hclean ↦ absurd hclean (unclean rfl)⟩
    | some o => exact read o rfl
  refine .skip Cursor.Passes.skipBlanks Cursor.hosts_of_skipBlanks (.cursor fun c hc ↦ ?_)
  split
  · exact .of hc (.pure .nil)
  · exact .of hc (.pure .nil)
  · exact .of hc (round (choiceOption_accounts hg laid))
  · exact .of hc (round (.unexpected _))

private theorem choice_accounts :
    Accounts clean ts (fun words x ↦ Made clean ts (bodyVisits everywhere [.choice x]) words)
      (choice g) := by
  refine .skip (keyword_idle _ rfl) fun first ↦ .skip (discretion_idle _) fun criteria ↦ ?_
  refine .skip (symbol_idle _) fun _ ↦ .cursor fun c hc ↦ ?_
  dsimp only
  split
  · exact .of_error rfl (.refl c)
  · next opens =>
    obtain ⟨newline, indent⟩ := kinds_of_atBlock hc (by simpa using opens)
    refine .take_at hc newline nofun rfl (.take (hc.passes (.advance c)) indent nofun rfl ?_)
    refine .bind (.gather (Q := fun words os ↦ Full clean ts words (optionVisits everywhere os)
      (os.map OptionOf.body)) (.several optionVisits_append) (choiceRound_accounts hg laid)) ?_
    refine fun options ↦ .skip (expect_idle _ nofun rfl) fun _ ↦ ?_
    split
    · exact fun c hc ↦ .of_error rfl (.refl c)
    · next some =>
      refine .spanFrom fun span ↦ .pure fun words full ↦ ?_
      rw [List.append_nil]
      exact (Full.cons (v := .discretion criteria) full trivial rfl).statement trivial
        fun _ ↦ by simpa [Visit.isFilled] using some

/-! ## Conditions and pipes -/

private theorem branch_accounts (word : Keyword) (idle : (TokenKind.keyword word).isHost = false) :
    Accounts clean ts (fun words b ↦ Full clean ts words (branchVisits everywhere [b]) [b.body])
      (branch g word) := by
  refine .skip (keyword_idle _ idle) fun keyword ↦ .skip (discretion_idle _) fun condition ↦ ?_
  refine (block_accounts hg laid _).close fun words body span full ↦ ?_
  rw [branchVisits, branchVisits, List.append_nil]
  exact full.cons trivial rfl

private theorem conditional_accounts :
    Accounts clean ts (fun words x ↦ Made clean ts (bodyVisits everywhere [.conditional x]) words)
      (conditional g) := by
  refine .cursor fun c hc ↦ .of hc ((branch_accounts hg laid .if_ rfl).bind fun start ↦ ?_)
  have more : Accounts clean ts (fun words bs ↦ Full clean ts words (branchVisits everywhere bs)
      (bs.map BranchOf.body)) (manyWhile (do return (← cursor).comesNext (.keyword .elif)) (do
        move Cursor.skipComments
        branch g .elif)) := by
    refine manyWhile_accounts (.several branchVisits_append) .nil
      (.cursor fun c hc ↦ .of hc (.pure rfl)) ?_
    refine fun c hc ↦ .move (.skip c _) Cursor.hosts_of_skipComments ?_
    exact branch_accounts hg laid .elif rfl _ (hc.passes (.skip c _))
  refine more.bind fun more ↦ ?_
  refine (lastClause_accounts hg laid .else_ rfl .elseClause).bind fun otherwise ↦ ?_
  refine .spanFrom fun span ↦ .pure fun last otherwise later more words start ↦ ?_
  rw [List.append_nil, ← List.append_assoc]
  exact (Full.append (Full.several branchVisits_append start more) otherwise).statement trivial
    fun _ ↦ rfl

private theorem pipeStatement_accounts :
    Accounts clean ts (fun words s ↦ Made clean ts (bodyVisits everywhere [s]) words
      ∧ s.isComment = false) (pipeStatement g pipes) := by
  refine .cursor fun c hc ↦ .of hc ((primary_accounts hg laid pipes).bind fun input ↦ ?_)
  refine atPipe_accounts pipes (.throw _) fun d hd hk ↦ ?_
  refine (pipeTail_accounts hg laid hd hk input _).bind hd fun p ↦ .pure ?_
  intro words piped before made
  rw [List.append_nil]
  exact ⟨Full.statement (.of_made (piped before made)) trivial fun _ ↦ rfl, rfl⟩

/-! ## Statements -/

private theorem oneStatement_takes :
    Takes clean ts (fun taken s ↦ Made clean ts (bodyVisits everywhere [s]) (hosts taken)
      ∧ (s.isComment = true → ∃ t, taken = [t] ∧ t.kind.isComment = true))
        (oneStatement g pipes) := by
  have code {p : Parser Statement} (hp : Accounts clean ts (fun words s ↦
      Made clean ts (bodyVisits everywhere [s]) words ∧ s.isComment = false) p) :
      Takes clean ts (fun taken s ↦ Made clean ts (bodyVisits everywhere [s]) (hosts taken)
        ∧ (s.isComment = true → ∃ t, taken = [t] ∧ t.kind.isComment = true)) p :=
    Takes.imp hp fun taken s ⟨made, code⟩ ↦
      ⟨made, fun comment ↦ by rw [code] at comment; cases comment⟩
  have construct {α : Type} {f : α → Statement} {p : Parser α} (hp : Accounts clean ts
      (fun words x ↦ Made clean ts (bodyVisits everywhere [f x]) words) p)
      (plain : ∀ x, (f x).isComment = false) :
      Takes clean ts (fun taken s ↦ Made clean ts (bodyVisits everywhere [s]) (hosts taken)
        ∧ (s.isComment = true → ∃ t, taken = [t] ∧ t.kind.isComment = true)) (f <$> p) :=
    code (.map hp fun _ x made ↦ ⟨made, plain x⟩)
  refine .peek fun c hc ↦ ?_
  split
  · next text hk =>
    refine TakesAt.take hc (by rw [hk]; nofun) (Takes.pure ⟨?_, fun _ ↦ ⟨c.current, rfl, ?_⟩⟩ _
      (hc.passes (.advance c)))
    · rw [hosts_singleton (by rw [hk]; rfl)]
      exact Full.statement .nil trivial fun _ ↦ rfl
    · rw [hk]
      rfl
  · exact construct importSkill_accounts (fun _ ↦ rfl) c hc
  · exact code (.last (agent_accounts hg pipes) fun _ _ made ↦ ⟨made, rfl⟩) c hc
  · exact construct (blockDefinition_accounts hg laid) (fun _ ↦ rfl) c hc
  · exact construct (binding_accounts hg laid pipes _) (fun _ ↦ rfl) c hc
  · exact construct (binding_accounts hg laid pipes _) (fun _ ↦ rfl) c hc
  · exact construct (f := .action) ((doAction_accounts hg laid pipes).imp fun _ _ made ↦
      Full.statement (.of_made made) trivial fun _ ↦ rfl) (fun _ ↦ rfl) c hc
  · exact code (parallel_accounts hg laid pipes) c hc
  · exact construct (repeated_accounts hg laid) (fun _ ↦ rfl) c hc
  · exact construct (forEach_accounts hg laid pipes _) (fun _ ↦ rfl) c hc
  · exact construct (loop_accounts hg laid) (fun _ ↦ rfl) c hc
  · exact construct (attempt_accounts hg laid) (fun _ ↦ rfl) c hc
  · exact construct throwStatement_accounts (fun _ ↦ rfl) c hc
  · exact construct (choice_accounts hg laid) (fun _ ↦ rfl) c hc
  · exact construct (conditional_accounts hg laid) (fun _ ↦ rfl) c hc
  · refine TakesAt.peekNext ?_
    split
    · exact construct (assignment_accounts hg laid pipes) (fun _ ↦ rfl) c hc
    · exact Takes.throw _ c hc
    · exact code (pipeStatement_accounts hg laid pipes) c hc
  · exact code (pipeStatement_accounts hg laid pipes) c hc
  · exact code (pipeStatement_accounts hg laid pipes) c hc
  · exact code (pipeStatement_accounts hg laid pipes) c hc
  · exact code (pipeStatement_accounts hg laid pipes) c hc
  · exact code (pipeStatement_accounts hg laid pipes) c hc
  · exact Takes.unexpected _ c hc

private theorem sessionRound_accounts :
    StepAccounts clean ts (fun words r ↦ Sequenced clean ts r.2.error? words r.1)
      (sessionRound g pipes) := by
  refine .cursor fun c hc ↦ .of hc (.bind (.run (session_accounts hg pipes)) fun r ↦ ?_)
  rcases r with e | s
  · exact .pure fun _ _ ↦ .of_error nofun
  refine .bind (.run (take?_idle (.symbol .arrow) nofun rfl)) fun r ↦ ?_
  rcases r with e | _ | arrow
  · exact .pure fun _ _ _ _ ↦ .of_error nofun
  · refine .cursor fun d hd ↦ ?_
    split
    · next bar =>
      have hk : d.current.kind = .symbol .pipe := of_decide_eq_true (Bool.and_eq_true _ _ ▸ bar).2
      refine .bind hd (.run (pipeTail_accounts hg laid hd hk _ _)) fun r ↦ ?_
      rcases r with e | p
      · exact .pure fun _ _ _ _ _ _ ↦ .of_error nofun
      · refine .pure fun words piped none idle first made ↦ ?_
        rw [List.append_nil, idle _ rfl, List.nil_append]
        exact .of_action (piped p rfl first (made s rfl s.arrow))
    · refine .of hd (.pure fun none idle first made ↦ ?_)
      rw [List.append_nil, idle _ rfl, List.append_nil]
      exact .of_action (made s rfl s.arrow)
  · refine .cursor fun d hd ↦ ?_
    dsimp only
    split
    · refine .of hd (.pure fun arrows idle words made ↦ ?_)
      rw [List.append_nil, idle _ rfl, List.append_nil]
      exact .of_action (made s rfl _)
    · refine .of hd (.pure fun arrows idle words made ↦ .of_error ?_)
      exact (Sequenced.of_action (made s rfl (some arrow.span))).made.written

private theorem statement_takes :
    StepTakes clean ts (fun taken r ↦ Supplied clean ts taken r.1 r.2) (statement g pipes) := by
  intro c hc
  rw [StepTakesAt, statement]
  split
  · have sessions := rounds_takes (P := fun e taken xs ↦ Sequenced clean ts e (hosts taken) xs)
      (fun here later ↦ by rw [hosts_append]; exact here.append later)
      (sessionRound_accounts hg laid pipes) c hc
    exact sessions.imp fun taken r read ↦ ⟨read.made, fun none ↦ .inl (read.code none)⟩
  · have one := oneStatement_takes hg laid pipes c hc
    change Taken clean c _ (oneStatement g pipes c) at one
    rcases run : oneStatement g pipes c with ⟨e | s, d⟩
    all_goals
      rw [run] at one
      obtain ⟨passes, gives⟩ := one
    · exact ⟨passes, fun _ _ _ ↦ .of_error e⟩
    · refine ⟨passes, fun record taken rest ↦ ?_⟩
      obtain ⟨made, comment⟩ := gives record taken rest s rfl
      refine ⟨made.weaken And.left, fun _ ↦ ?_⟩
      cases code : s.isComment with
      | true => exact .inr (comment code)
      | false => exact .inl (hasCode_of_mem List.mem_cons_self code)

end Nested

end Parser

/-- What the parsers of nested constructs give is made from what they take at every depth. -/
theorem Nested.making_upTo (laid : LaidOut ts) (depth : Nat) : (upTo depth).Making clean ts := by
  induction depth with
  | zero =>
    refine ⟨⟨0, rfl⟩, fun _ ↦ .unexpected _, fun _ c hc ↦ ?_, fun _ ↦ .unexpected _⟩
    exact ⟨.refl c, fun _ _ _ ↦ .of_error _⟩
  | succ depth ih =>
    exact ⟨⟨depth + 1, rfl⟩, Parser.value_accounts ih laid, Parser.statement_takes ih laid,
      Parser.propertyBlock_accounts ih⟩

/-! ## Programs -/

variable (source : String)

/-- The start of a text is in the stream that is read of it, and the stream is clean if nothing is
wrong. -/
theorem on_startOf : (startOf source).On ((parse source).hasErrors = false)
    (readTokens source) where
  final := by rw [startOf_eq]
  suffix := ⟨[], readTokens_rest source⟩
  valid h := (starts_startOf source (errors_of_hasErrors h).2).toStands.rejected

/-- A text without errors is read to its end. -/
theorem rest_readAll (h : (parse source).hasErrors = false) :
    (readAll (depthOf source) (startOf source)).2.rest = [] := by
  have ahead : (startOf source).rest.length ≤ depthOf source := Nat.le_succ _
  obtain ⟨read, a, -, done, -, run, -⟩ := Parser.rounds_within (e := .alone)
    (agrees_upTo ahead ahead) (starts_startOf source (errors_of_hasErrors h).2).toStands
    (Nat.le_refl _) fun _ ↦ rfl
  rw [readAll, run]
  exact done

/-- A program is made from the tokens that are read of its text. -/
theorem made_parse :
    Made ((parse source).hasErrors = false) (readTokens source) (parse source).program.visits
      (hosts (readTokens source)) := by
  obtain ⟨passes, gives⟩ := Parser.statements_takes false
    ((Nested.making_upTo (laidOut_readTokens source) (depthOf source)).statement true) _
    (on_startOf source)
  obtain ⟨taken, rest⟩ := passes.suffix
  have gathered := gives (fun h ↦ (errors_of_hasErrors h).1) taken rest.symm
  refine ⟨gathered.made.written, gathered.made.complete, fun h t ht ↦ gathered.made.owned h t ?_⟩
  have whole : taken = readTokens source := by
    have stops := rest_readAll source h
    change (Parser.statements _ false (startOf source)).2.rest = [] at stops
    rw [← readTokens_rest, ← rest, stops, List.append_nil]
  rwa [whole]

variable {source}

/-- A text without errors is read as a program with nothing missing: all of its bodies have
something to run, but for those of parallel blocks, and every construct has what it cannot do
without. -/
theorem isComplete_of_hasErrors (h : (parse source).hasErrors = false) :
    ∀ v ∈ (parse source).program.visits, v.isComplete = true := (made_parse source).complete h

/-- A comment is no code, so here one stands before the code of a body. -/
theorem isComplete_try :
    (parse "try:\n  # none\n  session \"a\"\nfinally:\n  throw\n").hasErrors = false
      ∧ ∀ v ∈ (parse "try:\n  # none\n  session \"a\"\nfinally:\n  throw\n").program.visits,
        v.isComplete = true :=
  ⟨by decide +kernel, isComplete_of_hasErrors (by decide +kernel)⟩

variable (source)

/-- The settings of a program are those that its text writes. A session and an agent have each of
their settings once in the text at their place, whatever else is wrong; and if nothing is wrong,
every word that starts a session or an agent starts one of the program, unless it is the key of a
property. Of the modifiers with the same key, parallel blocks and loops have the last. -/
theorem settings_parse :
    (∀ s, .action (.session s) ∈ (parse source).program.visits →
        s.IsWritten (readTokens source) ∧ (s.keys.map Located.val).Nodup)
      ∧ (∀ a, .statement (.agent a) ∈ (parse source).program.visits →
        a.IsWritten (readTokens source) ∧ (a.keys.map Located.val).Nodup)
      ∧ (∀ p, .statement (.parallel p) ∈ (parse source).program.visits →
        p.IsWritten (readTokens source))
      ∧ (∀ l, .statement (.loop l) ∈ (parse source).program.visits →
        l.IsWritten (readTokens source))
      ∧ ((parse source).hasErrors = false → ∀ t ∈ readTokens source, t.kind.isHost = true →
        ∃ v ∈ (parse source).program.visits, v.Owns t) := by
  have made := made_parse source
  refine ⟨fun s hs ↦ ?_, fun a ha ↦ ?_, fun p hp ↦ made.written _ hp, fun l hl ↦ made.written _ hl,
    fun h t ht host ↦ made.owned h t (List.mem_filter.2 ⟨ht, host⟩)⟩
  · obtain ⟨depth, pipes, text, read, span, keys, once⟩ : s.IsWritten _ := made.written _ hs
    refine ⟨⟨depth, pipes, text, read, span, keys, once⟩, ?_⟩
    rw [← keys]
    exact (List.nodup_append.1 once).2.1
  · obtain ⟨depth, pipes, text, read, span, keys, once⟩ : a.IsWritten _ := made.written _ ha
    exact ⟨⟨depth, pipes, text, read, span, keys, once⟩, keys ▸ once⟩

/-- Two keys in the header of a parallel block are no error. -/
theorem parse_parallel_twice :
    (parse "parallel (count: 1, count: 2):\n  throw\n").hasErrors = false
      ∧ ∃ p, .statement (.parallel p)
          ∈ (parse "parallel (count: 1, count: 2):\n  throw\n").program.visits
        ∧ ¬ (p.keys.map Located.val).Nodup := by
  refine ⟨by decide +kernel, ?_⟩
  have repeats : ((parse "parallel (count: 1, count: 2):\n  throw\n").program.statements.any fun s ↦
      s.parallel?.any fun p ↦ !decide (p.keys.map Located.val).Nodup) = true := by decide +kernel
  obtain ⟨s, hs, found⟩ := List.any_eq_true.1 repeats
  obtain ⟨p, is, twice⟩ := (Option.any_eq_true _ _).1 found
  obtain rfl := Statement.eq_of_parallel? is
  exact ⟨p, statement_mem_bodyVisits hs, by simpa using twice⟩

end ProseLang
