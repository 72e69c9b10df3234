import ProseLang.Proofs.Grammar.Leaves
import ProseLang.Proofs.Grammar.ValueOutlines
import ProseLang.Proofs.Token.Holes

/-!
# Outlines of programs that are read

Statements are read in order as values are (`oneStatement_traces`, `statement_sweeps`), and the
depth of nesting is the induction that ties the productions together (`Nested.outlining_upTo`). So
below every statement of a program everything lies within what holds it, and what stands in a row is
in the order of the text, whatever is wrong with the text (`outlines_nest`).
-/

namespace ProseLang

open Outline

variable {ts : List Token} {c : Cursor} {g : Nested} {m k n : Nat}

namespace Parser

/-! ## Statements -/

private theorem importSkill_traces (m : Nat) :
    Traces ts m (fun n i ↦ (Statement.importSkill i).outline.Fits ts m n) importSkill := by
  refine (keyword_traces _).bind fun k first _ leads ↦ ?_
  have before := leads.place.before
  refine (string_traces _).bind fun k₁ skill h₁ hskill ↦ ?_
  refine (keyword_traces _).bind fun k₂ fromKeyword h₂ hfrom ↦ ?_
  refine (string_traces _).bind fun n source hn hsource ↦ .close ?_
  rintro stop rfl ends
  have parts : Strung ts k stop.offset [skill.outline, leaf fromKeyword, source.outline] :=
    .cons hskill (.cons (fits_leaf.2 hfrom.place) (.singleton hsource) h₂ hn) h₁ (by omega)
  exact .opened leads (by omega) ends (parts.mono before (Nat.le_refl _)).scattered .nil (by omega)

private theorem throwStatement_traces (m : Nat) :
    Traces ts m (fun n t ↦ (Statement.throw t).outline.Fits ts m n) throwStatement := by
  refine (keyword_traces _).bind fun k first _ leads ↦ ?_
  refine .peek fun c hc hk ↦ string_optional_traces hc fun n message hn hmessage ↦ .close ?_
  rw [hk] at hn hmessage
  rintro stop rfl ends
  have before := leads.place.before
  exact .opened leads hn ends (hmessage.mono before (Nat.le_refl _)).scattered .nil (by omega)

private theorem asBinding?_traces (m : Nat) :
    Traces ts m (fun n r ↦ Strung ts m n (r.toList.flatMap AsBinding.outlines)) asBinding? := by
  refine (take?_traces (.keyword .as_) rfl).bind fun k r hk hr ↦ ?_
  split
  · next t =>
    refine (name_traces _).bind fun n name hn hname ↦ .pure ?_
    have word : (leaf t.span).Fits ts m k := fits_leaf.2 (hr t rfl).2.2
    rw [Option.toList_some, List.flatMap_singleton]
    exact .cons word (.singleton hname) hk hn
  · exact .pure .nil

private theorem loopCondition_traces (kind : ConditionKind) (hc : c.Orderly ts)
    (hk : c.current.kind = .keyword kind.keyword) :
    TracesAt ts c (fun n x ↦ Strung ts c.lastEnd.offset n x.outlines) (loopCondition kind) := by
  refine Traces.take_at hc (by rw [hk]; rfl) fun k place ↦ ?_
  refine (discretion_traces _).bind fun n discretion hn hdiscretion ↦ .pure ?_
  exact .cons (fits_leaf.2 place) (.singleton hdiscretion) (Nat.le_of_lt place.lt) hn

private theorem loopCondition?_traces (m : Nat) :
    Traces ts m (fun n r ↦ Strung ts m n (r.toList.flatMap LoopCondition.outlines))
      loopCondition? := by
  have condition (kind : ConditionKind) (c : Cursor) (hc : c.Orderly ts)
      (hm : c.lastEnd.offset = m) (hk : c.current.kind = .keyword kind.keyword) :
      TracesAt ts c (fun n r ↦ Strung ts m n (r.toList.flatMap LoopCondition.outlines))
        (some <$> loopCondition kind) := by
    rw [map_eq_pure_bind]
    refine TracesAt.bind (loopCondition_traces kind hc hk) fun n x _ hx ↦ .pure ?_
    rw [Option.toList_some, List.flatMap_singleton]
    exact hm ▸ hx
  refine .peek fun c hc hm ↦ ?_
  split
  · next hk => exact condition .until_ c hc hm hk
  · next hk => exact condition .while_ c hc hm hk
  · exact .of_traces (.pure .nil) hc hm

/-- A clause that may follow a block starts with its word. -/
theorem clause?_traces {α : Type} (f : α → Outline) (word : Keyword) {p : Span → Parser α}
    (hp : ∀ k first, first.Leads ts m k (some word) →
      Traces ts k (fun n x ↦ (f x).Fits ts m n) (p first)) :
    Traces ts m (fun n r ↦ Strung ts m n (r.toList.map f)) (clause? word p) := by
  refine .here fun c hc hm ↦ ?_
  split
  · next comes =>
    have onward := hc.skipComments
    have kind : c.skipComments.current.kind = .keyword word :=
      (Cursor.current_skipComments comes).1
    have visible : c.skipComments.current.kind.isLayout = false := by rw [kind]; rfl
    have clause : TracesAt ts c.skipComments (fun n r ↦ Strung ts m n (r.toList.map f)) (do
        let first := (← take).span
        some <$> p first) := by
      refine Traces.take_at onward.orderly visible fun k place ↦ ?_
      have leads : c.skipComments.current.span.Leads ts m k (some word) := by
        have own : c.skipComments.current.kind.isAside = false := by rw [kind]; rfl
        refine onward.orderly.leads visible own
          (place.mono (hm ▸ onward.grows) (Nat.le_refl k)) ?_
        rintro _ ⟨⟩
        exact kind
      exact (hp k _ leads).map fun n x _ hx ↦ .singleton hx
    exact ⟨onward.trans clause.1, clause.2⟩
  · exact .of_traces (.pure .nil) hc hm

section Nested

variable (hg : g.Outlining ts) (pipes : Bool)
include hg

private theorem blockDefinition_traces (m : Nat) :
    Traces ts m (fun n b ↦ (Statement.block b).outline.Fits ts m n) (blockDefinition g) := by
  refine (keyword_traces _).bind fun k first _ leads ↦
    (name_traces _).bind fun k₁ name h₁ hname ↦ ?_
  have before := leads.place.before
  refine (parenthesized?_traces (Joins.strung Located.outline)
    (fun m ↦ (name_traces _).imp fun n _ _ h ↦ .singleton h) k₁).bind fun k₂ params h₂ hparams ↦ ?_
  refine (block_traces hg _ k₂).bind fun n body hn hbody ↦ .close ?_
  rintro stop rfl ends
  rw [outline_block]
  have parts := (Strung.cons hname hparams h₁ h₂).mono before (Nat.le_refl k₂)
  exact .opened leads (by omega) ends parts.scattered hbody (by omega)

private theorem binding_traces (kind : BindingKind) (m : Nat) :
    Traces ts m (fun n b ↦ (Statement.binding kind b).outline.Fits ts m n)
      (binding g pipes kind) := by
  refine (keyword_traces _).bind fun k first _ leads ↦
    (name_traces _).bind fun k₁ name h₁ hname ↦ ?_
  have before := leads.place.before
  refine (symbol_traces _).bind fun k₂ _ h₂ _ ↦ ?_
  refine (value_traces hg pipes k₂).bind fun n value hn hvalue ↦ .close ?_
  rintro stop rfl ends
  rw [outline_binding]
  refine .opened leads (by omega) ends .nil ?_ ⟨before, by omega⟩
  exact .cons (hname.mono (Nat.le_refl k) h₂) (.singleton hvalue) (by omega) hn

private theorem assignment_traces (m : Nat) :
    Traces ts m (fun n a ↦ (Statement.assignment a).outline.Fits ts m n)
      (assignment g pipes) := by
  refine (name_traces _).bind fun k₁ name h₁ hname ↦ (symbol_traces _).bind fun k₂ _ h₂ _ ↦ ?_
  refine (value_traces hg pipes k₂).bind fun n value hn hvalue ↦ .close ?_
  rintro stop rfl ends
  rw [outline_assignment]
  exact .leading (hname.mono (Nat.le_refl m) h₂) rfl nofun hn ends (.singleton hvalue)

/-- A loop over a collection, with `parallel` in front of it or not. -/
theorem forEach_traces (parallelKeyword : Option Span)
    (leads : ∀ first ∈ parallelKeyword, first.Leads ts m k (some .parallel)) (hm : m ≤ k) :
    Traces ts k (fun n f ↦ (Statement.forEach f).outline.Fits ts m n)
      (forEach g pipes parallelKeyword) := by
  refine (keyword_traces _).bind fun k₁ forKeyword h₁ hfor ↦ ?_
  refine (name_traces _).bind fun k₂ item h₂ hitem ↦ (symbol?_traces _).bind fun k₃ b h₃ _ ↦ ?_
  have word : (Outline.leaf forKeyword).Fits ts k k₁ := fits_leaf.2 hfor.place
  have first : (parallelKeyword.getD forKeyword).Leads ts m k₁
        (some (if parallelKeyword.isSome then .parallel else .for_))
      ∧ (parallelKeyword.getD forKeyword).start.offset ≤ forKeyword.start.offset := by
    cases parallelKeyword with
    | none => exact ⟨{ hfor with place := hfor.place.mono hm (Nat.le_refl k₁) }, Nat.le_refl _⟩
    | some first =>
      have leads := leads first rfl
      refine ⟨{ leads with place := leads.place.mono (Nat.le_refl m) h₁ }, ?_⟩
      exact Nat.le_trans leads.place.before hfor.place.left
  have rest {p : Parser (Option Ident)}
      (hp : Traces ts k₃ (fun n x ↦ Strung ts k₃ n (x.toList.map Located.outline)) p) :
      Traces ts k₃ (fun n f ↦ (Statement.forEach f).outline.Fits ts m n) (do
        let index ← p
        let inKeyword ← keyword .in_
        let collection ← primary g pipes
        let body ← block g .forEachBlock
        return { item, index, collection, isParallel := parallelKeyword.isSome, forKeyword, inKeyword,
                 body, span := ← spanFrom (parallelKeyword.getD forKeyword) }) := by
    refine hp.bind fun k₄ index h₄ hindex ↦ (keyword_traces _).bind fun k₅ inKeyword h₅ hin ↦ ?_
    refine (primary_traces hg pipes k₅).bind fun k₆ collection h₆ hcollection ↦ ?_
    refine (block_traces hg _ k₆).bind fun n body hn hbody ↦ .close ?_
    rintro stop rfl ends
    rw [outline_forEach]
    have names : Strung ts forKeyword.start.offset k₄
        (leaf forKeyword :: item.outline :: index.toList.map Located.outline) :=
      .cons word.tight (.cons hitem (hindex.mono h₃ (Nat.le_refl k₄)) h₂ (by omega))
        hfor.place.before (by omega)
    have source : Strung ts k₄ k₆ [leaf inKeyword, collection.outline] :=
      .cons (fits_leaf.2 hin.place) (.singleton hcollection) h₅ h₆
    have within := hfor.place.before
    have parts := (names.append source (by omega) (by omega)).mono first.2 (Nat.le_refl k₆)
    exact .opened first.1 (by omega) ends parts.scattered hbody (by omega)
  split
  · exact rest ((name_traces _).map fun n x _ hx ↦ .singleton hx)
  · exact rest (.pure .nil)

private theorem parallel_traces (m : Nat) :
    Traces ts m (fun n s ↦ Strung ts m n s.outlines) (parallel g pipes) := by
  refine (keyword_traces _).bind fun k first hk leads ↦ .at? fun collection ↦ ?_
  have before := leads.place.before
  dsimp only
  split
  · refine (forEach_traces hg pipes (some first) ?_ hk).bind fun n f _ hf ↦ .pure (.bare hf rfl)
    rintro _ ⟨⟩
    exact leads
  · refine modifiers?_traces.bind fun k₁ ms h₁ hms ↦ ?_
    refine Traces.bind (P := fun _ p ↦ Scattered ts k k₁ p.outlines) (.lift ?_)
      fun k₂ p h₂ hp ↦ (symbol_traces _).bind fun k₃ _ h₃ _ ↦ ?_
    · exact ParallelOf.withModifiers_concludes (p := ⟨none, none, none, [], [], first⟩)
        (.nil (m := k) (n := k)) hms (Nat.le_refl k) h₁
    · refine (blockBody?_traces hg k₃).bind fun n body hn hbody ↦ .close ?_
      rintro stop rfl ends
      refine .bare ?_ rfl
      rw [outline_parallel]
      exact .opened leads (by omega) ends (hp.mono before (Nat.le_refl k₁))
        (hbody.mono (by omega) (Nat.le_refl _)) (by omega)

private theorem repeated_traces (m : Nat) :
    Traces ts m (fun n r ↦ (Statement.repeated r).outline.Fits ts m n) (repeated g) := by
  refine (keyword_traces _).bind fun k first _ leads ↦ ?_
  refine (count_traces _).bind fun k₁ count h₁ hcount ↦ ?_
  have before := leads.place.before
  refine (asBinding?_traces k₁).bind fun k₂ index h₂ hindex ↦ ?_
  refine (block_traces hg _ k₂).bind fun n body hn hbody ↦ .close ?_
  rintro stop rfl ends
  rw [outline_repeated]
  have parts := (Strung.cons hcount hindex h₁ h₂).mono before (Nat.le_refl k₂)
  exact .opened leads (by omega) ends parts.scattered hbody (by omega)

private theorem loop_traces (m : Nat) :
    Traces ts m (fun n l ↦ (Statement.loop l).outline.Fits ts m n) (loop g) := by
  refine (keyword_traces _).bind fun k first _ leads ↦ ?_
  have before := leads.place.before
  refine (loopCondition?_traces k).bind fun k₁ condition h₁ hcondition ↦ ?_
  refine (asBinding?_traces k₁).bind fun k₂ index h₂ hindex ↦ ?_
  refine modifiers?_traces.bind fun k₃ ms h₃ hms ↦ ?_
  refine Traces.bind (P := fun _ l ↦ Scattered ts k k₃ l.outlines) (.lift ?_) fun k₄ l h₄ hl ↦ ?_
  · refine LoopOf.withModifiers_concludes (l := ⟨condition, none, index, [], [], first⟩) ?_ hms
      (Nat.le_trans h₁ h₂) h₃
    have header := (hcondition.append hindex h₁ h₂).scattered
    simpa [LoopOf.outlines] using header
  · refine (block_traces hg _ k₄).bind fun n body hn hbody ↦ .close ?_
    rintro stop rfl ends
    rw [outline_loop]
    exact .opened leads (by omega) ends (hl.mono before h₄) hbody (by omega)

/-- A clause that has a body only. -/
theorem bodyClause_traces (construct : Construct) {word : Keyword} {first : Span}
    (leads : first.Leads ts m k (some word)) :
    Traces ts k (fun n x ↦ (BodyOf.outline word x).Fits ts m n) (do
      let body ← block g construct
      return ({ body, span := ← spanFrom first } : Body)) := by
  refine (block_traces hg _ k).bind fun n body hn hbody ↦ .close ?_
  rintro stop rfl ends
  exact .opened leads hn ends .nil hbody ⟨leads.place.before, hn⟩

private theorem attempt_traces (m : Nat) :
    Traces ts m (fun n t ↦ (Statement.attempt t).outline.Fits ts m n) (attempt g) := by
  refine (keyword_traces _).bind fun k first _ leads ↦ ?_
  have before := leads.place.before
  refine (block_traces hg _ k).bind fun k₁ body h₁ hbody ↦ ?_
  have handler (a b : Nat) (first : Span) (leads : first.Leads ts a b (some .catch_)) :
      Traces ts b (fun n h ↦ (HandlerOf.outline h).Fits ts a n) (do
        let error ← asBinding?
        let body ← block g .catchClause
        return ({ error, body, span := ← spanFrom first } : Handler)) := by
    have before := leads.place.before
    refine (asBinding?_traces b).bind fun n₁ error h₁ herror ↦ ?_
    refine (block_traces hg _ n₁).bind fun n body hn hbody ↦ .close ?_
    rintro stop rfl ends
    have parts := (herror.mono before (Nat.le_refl n₁)).scattered
    exact .opened leads (by omega) ends parts hbody (by omega)
  refine (clause?_traces HandlerOf.outline .catch_ (handler k₁)).bind
    fun k₂ handler h₂ hhandler ↦ ?_
  refine (clause?_traces (BodyOf.outline .finally_) .finally_
    fun _ _ ↦ bodyClause_traces hg .finallyClause).bind fun k₃ cleanup h₃ hcleanup ↦ ?_
  have whole {n : Nat} (hn : k₃ ≤ n) : Traces ts n
      (fun n t ↦ (Statement.attempt t).outline.Fits ts m n) (do
        return { body, handler, cleanup, span := ← spanFrom first }) := by
    refine .close ?_
    rintro stop rfl ends
    rw [outline_attempt]
    have row := (hbody.append hhandler h₁ h₂).append hcleanup (by omega) h₃
    exact .opened leads (by omega) ends .nil (row.mono (Nat.le_refl k) hn) ⟨before, by omega⟩
  dsimp only
  split
  · exact .move (fun c hc ↦ hc.report leads.place.anchored) fun n hn ↦ whole hn
  · exact whole (Nat.le_refl k₃)

private theorem choiceOption_traces (m : Nat) :
    Traces ts m (fun n o ↦ (OptionOf.outline o).Fits ts m n) (choiceOption g) := by
  refine (keyword_traces _).bind fun k first _ leads ↦ ?_
  refine (string_traces _).bind fun k₁ label h₁ hlabel ↦ ?_
  have before := leads.place.before
  refine (block_traces hg _ k₁).bind fun n body hn hbody ↦ .close ?_
  rintro stop rfl ends
  have parts := Scattered.singleton (hlabel.mono before (Nat.le_refl k₁))
  exact .opened leads (by omega) ends parts hbody (by omega)

private theorem choiceRound_sweeps (m : Nat) :
    Sweeps ts m (fun n r ↦ Delivered ts (fun os ↦ Strung ts m n (os.map OptionOf.outline))
      (r.1, r.2.error?)) (choiceRound g) := by
  have round {m k : Nat} (hm : m ≤ k) {p : Parser ChoiceOption}
      (hp : Traces ts k (fun n o ↦ (OptionOf.outline o).Fits ts k n) p) :
      Sweeps ts k (fun n (r : List ChoiceOption × RoundEnd) ↦
        Delivered ts (fun os ↦ Strung ts m n (os.map OptionOf.outline)) (r.1, r.2.error?))
        (do return ((← recovering p).toList, .again)) := by
    refine (recovering_sweeps hp).bind fun n r _ hr ↦ .pure (.done ?_)
    cases r with
    | none => exact .nil
    | some o => exact Strung.singleton ((hr o rfl).mono hm (Nat.le_refl n))
  refine .move (fun c hc ↦ hc.skipBlanks) fun k hk ↦ .cursor fun c ↦ ?_
  split
  · exact .pure (.done .nil)
  · exact .pure (.done .nil)
  · exact round hk (choiceOption_traces hg k)
  · exact round hk (.unexpected _)

private theorem choice_traces (m : Nat) :
    Traces ts m (fun n c ↦ (Statement.choice c).outline.Fits ts m n) (choice g) := by
  refine (keyword_traces _).bind fun k first _ leads ↦ ?_
  have before := leads.place.before
  refine (discretion_traces _).bind fun k₁ criteria h₁ hcriteria ↦ ?_
  refine (symbol_traces _).bind fun k₂ _ h₂ taken ↦ .cursor fun c ↦ ?_
  have rest {gathered : Parser (List ChoiceOption)}
      (h : ∀ m, Traces ts m (fun n os ↦ Strung ts m n (os.map OptionOf.outline)) gathered)
      {k₃ : Nat} (h₃ : k₂ ≤ k₃) :
      Traces ts k₃ (fun n c ↦ (Statement.choice c).outline.Fits ts m n) (do
        let _ ← take
        let _ ← take
        let options ← gathered
        let _ ← expect .dedent
        if options.isEmpty then
          throw ⟨.unexpected "at least one 'option'" "an empty choice block", first⟩
        return { criteria, options, span := ← spanFrom first }) := by
    refine .take fun k₄ _ h₄ ↦ .take fun k₅ _ h₅ ↦ ?_
    refine Traces.bind (h k₅) fun k₆ options h₆ hoptions ↦ (expect_onward _).bind fun k₇ _ h₇ _ ↦ ?_
    have whole {n : Nat} (hn : k₇ ≤ n) : Traces ts n
        (fun n c ↦ (Statement.choice c).outline.Fits ts m n) (do
          return { criteria, options, span := ← spanFrom first }) := by
      refine .close ?_
      rintro stop rfl ends
      rw [outline_choice]
      have parts := Scattered.singleton (hcriteria.mono before (Nat.le_refl k₁))
      exact .opened leads (by omega) ends parts (hoptions.mono (by omega) (by omega)) (by omega)
    dsimp only
    split
    · exact Traces.bind (P := fun _ _ ↦ True) (.throw leads.place.anchored) fun n _ hn _ ↦ whole hn
    · exact whole (Nat.le_refl k₇)
  have options {k₃ : Nat} (h₃ : k₂ ≤ k₃) := rest
    (fun m ↦ .gather (rounds_sweeps (Joins.strung OptionOf.outline) (choiceRound_sweeps hg) m)) h₃
  dsimp only
  split
  · have pos : 0 < k₂ := Nat.zero_lt_of_lt taken
    exact Traces.bind (P := fun _ _ ↦ True) (.missingBlock _ pos) fun n _ hn _ ↦ options hn
  · exact options (Nat.le_refl k₂)

private theorem branch_traces (word : Keyword) (m : Nat) :
    Traces ts m (fun n b ↦ (BranchOf.outline word b).Fits ts m n) (branch g word) := by
  refine (keyword_traces _).bind fun k first _ leads ↦ ?_
  have before := leads.place.before
  refine (discretion_traces _).bind fun k₁ condition h₁ hcondition ↦ ?_
  refine (block_traces hg _ k₁).bind fun n body hn hbody ↦ .close ?_
  rintro stop rfl ends
  have word : (Outline.leaf first).Fits ts m k := fits_leaf.2 leads.place
  have parts : Strung ts first.start.offset k₁ [leaf first, condition.outline] :=
    .cons word.tight (.singleton hcondition) before h₁
  exact .opened leads (by omega) ends parts.scattered hbody (by omega)

private theorem conditional_traces (m : Nat) :
    Traces ts m (fun n x ↦ (Statement.conditional x).outline.Fits ts m n) (conditional g) := by
  refine .here fun c hc hm ↦ ?_
  have first : TracesAt ts c (fun n b ↦ (BranchOf.outline .if_ b).Fits ts m n
      ∧ b.span.start = c.current.span.start) (branch g .if_) :=
    TracesAt.of_runs (branch_traces hg .if_ m c hc hm) fun b d run ↦ by
      have spans : b.span = ⟨c.current.span.start, d.lastEnd⟩ := branch_spans .if_ b d run
      rw [spans]
  refine TracesAt.bind first fun k₁ start h₁ hstart ↦ ?_
  obtain ⟨fits, starts⟩ := hstart
  rw [hm] at h₁
  have comes (m : Nat) : Traces ts m (fun _ _ ↦ True)
      (do return (← cursor).comesNext (.keyword .elif)) := .cursor fun _ ↦ .pure trivial
  have item (m : Nat) : Traces ts m (fun n b ↦ Strung ts m n [BranchOf.outline .elif b]) (do
      move Cursor.skipComments
      branch g .elif) := by
    refine .move (fun c hc ↦ hc.skipComments) fun k hk ↦ ?_
    exact (branch_traces hg .elif k).imp fun n b _ hb ↦ .singleton (hb.mono hk (Nat.le_refl n))
  refine (manyWhile_traces (Joins.strung (BranchOf.outline .elif)) comes item k₁).bind
    fun k₂ more h₂ hmore ↦ ?_
  refine (clause?_traces (BodyOf.outline .else_) .else_
    fun _ _ ↦ bodyClause_traces hg .elseClause).bind fun n otherwise hn hotherwise ↦ .close ?_
  rintro stop rfl ends
  rw [outline_conditional, List.cons_append]
  refine .leading fits starts ?_ (by omega) ends (hmore.append hotherwise h₂ hn)
  rintro _ ⟨⟩
  obtain ⟨t, member, kind, place⟩ := (fits.sound _ (self_mem_nodes _)).opens .if_ rfl
  exact ⟨t, member, kind, place.trans starts⟩

private theorem pipeStatement_traces (m : Nat) :
    Traces ts m (fun n s ↦ Strung ts m n s.outlines) (pipeStatement g pipes) := by
  refine .here fun c hc hm ↦ TracesAt.bind
    (primary_tracesAt hg pipes hc hm) fun k input _ hinput ↦ ?_
  refine (atPipe_traces pipes).bind fun k₁ b h₁ _ ↦ ?_
  split
  · refine (pipeTail_traces hg (hinput.1.mono (Nat.le_refl m) h₁) hinput.2).bind fun n p _ hp ↦ ?_
    exact .pure (.bare hp rfl)
  · rw [← Expr.outline_span]
    exact .throw hinput.1.anchored

omit hg pipes in
/-- A construct that is a statement. -/
theorem made_traces {α : Type} {p : Parser α} {f : α → Statement}
    (h : Traces ts m (fun n x ↦ (f x).outline.Fits ts m n) p) (bare : ∀ x, (f x).arrow? = none) :
    Traces ts m (fun n s ↦ Strung ts m n s.outlines) (f <$> p) :=
  h.map fun _ x _ fits ↦ .bare fits (bare x)

private theorem oneStatement_traces (m : Nat) :
    Traces ts m (fun n s ↦ Strung ts m n s.outlines) (oneStatement g pipes) := by
  refine .peek fun c hc hm ↦ ?_
  have pipe : TracesAt ts c (fun n s ↦ Strung ts m n s.outlines) (pipeStatement g pipes) :=
    pipeStatement_traces hg pipes m c hc hm
  split
  · next text hk =>
    refine Traces.take_at hc (by rw [hk]; rfl) fun n place ↦ .pure ?_
    exact .bare (fits_leaf.2 (hm ▸ place)) rfl
  · exact made_traces (importSkill_traces m) (fun _ ↦ rfl) c hc hm
  · exact Traces.bind (Q := fun n (s : Statement) ↦ Strung ts m n s.outlines)
      (agent_traces hg pipes m) (fun _ _ _ h ↦ .pure (.bare h rfl)) c hc hm
  · exact made_traces (blockDefinition_traces hg m) (fun _ ↦ rfl) c hc hm
  · exact made_traces (binding_traces hg pipes _ m) (fun _ ↦ rfl) c hc hm
  · exact made_traces (binding_traces hg pipes _ m) (fun _ ↦ rfl) c hc hm
  · exact Traces.map (f := Statement.action) (Q := fun n s ↦ Strung ts m n s.outlines)
      (doAction_traces hg pipes m) (fun _ _ _ h ↦ .bare h.1 h.2) c hc hm
  · exact parallel_traces hg pipes m c hc hm
  · exact made_traces (repeated_traces hg m) (fun _ ↦ rfl) c hc hm
  · exact made_traces (forEach_traces hg pipes none nofun (Nat.le_refl m)) (fun _ ↦ rfl) c hc hm
  · exact made_traces (loop_traces hg m) (fun _ ↦ rfl) c hc hm
  · exact made_traces (attempt_traces hg m) (fun _ ↦ rfl) c hc hm
  · exact made_traces (throwStatement_traces m) (fun _ ↦ rfl) c hc hm
  · exact made_traces (choice_traces hg m) (fun _ ↦ rfl) c hc hm
  · exact made_traces (conditional_traces hg m) (fun _ ↦ rfl) c hc hm
  · refine Traces.peekNext (fun next ↦ ?_) c hc hm
    split
    · exact made_traces (assignment_traces hg pipes m) fun _ ↦ rfl
    · exact .throwHere
    · exact pipeStatement_traces hg pipes m
  · exact pipe
  · exact pipe
  · exact pipe
  · exact pipe
  · exact pipe
  · exact Traces.unexpected _ c hc hm

/-- One session of a sequence, with the arrow after it or the pipe that it goes into. -/
theorem sessionRound_sweeps (m : Nat) :
    Sweeps ts m (fun n r ↦ Delivered ts (fun ss ↦ Strung ts m n (ss.flatMap Statement.outlines))
      (r.1, r.2.error?)) (sessionRound g pipes) := by
  refine .here fun c hc hm ↦ ?_
  have one : TracesAt ts c (fun n s ↦ ((Action.session s).outline.Fits ts m n ∧ s.arrow = none)
      ∧ s.span.start = c.current.span.start) (session g pipes) :=
    TracesAt.of_runs (session_traces hg pipes m c hc hm) fun s d run ↦ by
      have spans : s.span = ⟨c.current.span.start, d.lastEnd⟩ := session_spans pipes s d run
      rw [spans]
  refine SweepsAt.next one fun k r hk hr ↦ ?_
  rcases r with e | s
  · exact .pure (.failed .nil hr)
  obtain ⟨⟨fits, bare⟩, starts⟩ := hr
  refine Sweeps.bind (take?_traces (.symbol .arrow) rfl) fun k₁ r h₁ taken ↦ ?_
  rcases r with e | _ | arrow
  · exact .pure (.failed .nil taken)
  · have fits : (Statement.action (.session s)).outline.Fits ts m k₁ :=
      fits.mono (Nat.le_refl m) h₁
    refine .cursor fun d ↦ ?_
    split
    · have input : (Expr.action (.session s)).outline.Fits ts m k₁ := fits
      refine Sweeps.bind (pipeTail_traces hg input starts) fun n r hn hr ↦ ?_
      rcases r with e | p
      · exact .pure (.failed .nil hr)
      · exact .pure (.done (Strung.bare hr rfl))
    · refine .pure (.done ?_)
      rw [List.flatMap_singleton]
      exact .bare fits bare
  · -- the arrow is no part of the session
    have place : arrow.span.Stands ts k k₁ := (taken arrow rfl).2.2
    have row : Strung ts m k₁
        (Statement.action (.session { s with arrow := some arrow.span })).outlines := by
      rw [Statement.outlines, outline_action, outline_session]
      rw [outline_session] at fits
      exact .cons fits (.singleton (fits_leaf.2 place)) (hm ▸ hk) h₁
    rw [← List.flatMap_singleton Statement.outlines] at row
    refine .here fun d hd hk ↦ ?_
    dsimp only
    split
    · exact .of_sweeps (.pure (.done row)) hd hk
    · exact .of_sweeps (.pure (.failed row hd.anchored_current)) hd hk

private theorem statement_sweeps (m : Nat) :
    Sweeps ts m (fun n r ↦ Delivered ts (fun ss ↦ Strung ts m n (ss.flatMap Statement.outlines)) r)
      (statement g pipes) := by
  intro c hc hm
  rw [SweepsAt, statement]
  split
  · exact rounds_sweeps (Joins.strungAll _) (sessionRound_sweeps hg pipes) m c hc hm
  · obtain ⟨onward, found⟩ := oneStatement_traces hg pipes m c hc hm
    change c.Onward ts (oneStatement g pipes c).2 at onward
    change Conclusion ts (fun s ↦ Strung ts m (oneStatement g pipes c).2.lastEnd.offset s.outlines)
      (oneStatement g pipes c).1 at found
    rcases run : oneStatement g pipes c with ⟨e | s, d⟩
    · rw [run] at onward found
      exact ⟨onward, .failed .nil found⟩
    · rw [run] at onward found
      refine ⟨onward, .done ?_⟩
      rw [List.flatMap_singleton]
      exact found

end Nested

end Parser

/-- What the parsers of nested constructs give is nested and in order at every depth. -/
theorem Nested.outlining_upTo (depth : Nat) : (Nested.upTo depth).Outlining ts := by
  induction depth with
  | zero =>
    constructor
    · exact fun _ _ ↦ .unexpected _
    · exact fun _ _ c hc _ ↦ ⟨hc.refl, .failed .nil hc.anchored_current⟩
    · exact fun _ _ ↦ .unexpected _
  | succ depth ih =>
    constructor
    · exact Parser.value_traces ih
    · exact Parser.statement_sweeps ih
    · exact Parser.propertyBlock_traces ih

/-! ## Programs -/

private theorem forthright_tokenize (source : String) : Forthright (tokenize source).tokens where
  forward t ht := ((tokenize_valid source).1 t ht t.span List.mem_cons_self).forward
  within _ _ member hole hhole :=
    have ⟨left, room, right⟩ := (holes_tokenize member hole hhole).1
    ⟨left, room, right⟩
  ordered _ _ member := by
    obtain ⟨-, -, triple, body, -, -, rfl⟩ := string_mem_tokenize member
    exact StringLiteral.ordered_holes _ triple body

/-- Reading starts in order. -/
theorem orderly_startOf (source : String) : (startOf source).Orderly (tokenize source).tokens := by
  have sublist := withoutTrailingComments_sublist none (tokenize source).tokens
  exact
    { toWithin := (within_ofTokens _).mono (sublist.filter _).subset
      among := by
        rw [startOf_eq, tokenize, tokens_tokenizeChars]
        intro t ht
        rcases List.mem_cons.1 ht with rfl | ht
        · exact List.mem_append_right _ List.mem_cons_self
        · exact List.mem_append_left _ (mem_of_mem_withoutTrailingComments ht)
      order := (inOrder_tokenize source).sublist ((List.takeWhile_sublist _).trans sublist)
      behind := fun _ _ ↦ Nat.zero_le _
      ended := nofun
      errors := nofun
      tokens := forthright_tokenize source }

/-- What reading a text comes to: where its statements stand, and the cursor at the end. -/
theorem swept_parse (source : String) :
    SweepsAt (tokenize source).tokens (startOf source)
      (fun n body ↦ Strung (tokenize source).tokens 0 n (body.flatMap Statement.outlines))
      (Parser.statements (Nested.statement (.upTo (depthOf source)) true) false) := by
  have parsers : (Nested.upTo (depthOf source)).Outlining (tokenize source).tokens :=
    Nested.outlining_upTo _
  exact Parser.statements_sweeps false (parsers.statement true) 0 _ (orderly_startOf source) rfl

/-- The statements of a program are read one after the other. -/
theorem strung_parse (source : String) :
    ∃ n, Strung (tokenize source).tokens 0 n (parse source).program.outlines :=
  ⟨_, (swept_parse source).2⟩

/-- What is wrong with the grammar of a text goes from the edge of one token to that of another. -/
theorem anchored_errors (source : String) :
    ∀ e ∈ (parse source).errors, e.span.Anchored (tokenize source).tokens :=
  (swept_parse source).1.orderly.errors

/-- Whatever is wrong with a text, everything in its program lies within what holds it, and the
statements of every body (with the arrows between them), the operations of every pipe, the options
of every choice, the branches of every conditional and the clauses of every `try` come one after the
other. -/
theorem outlines_nest (source : String) :
    (∀ o ∈ (parse source).program.outlines, ∀ p ∈ o.nodes, p.Nests)
      ∧ (parse source).program.outlines.Pairwise fun a b ↦
          a.span.stop.offset ≤ b.span.start.offset := by
  obtain ⟨n, fits, ordered⟩ := strung_parse source
  exact ⟨fun o ho p hp ↦ ((fits o ho).sound p hp).toNests, ordered⟩

/-- The arrow between two sessions stands between them. -/
example : (parse "session \"a\" -> session \"b\"\n").program.outlines.map
    (fun o ↦ (o.span.start.offset, o.span.stop.offset)) = [(0, 11), (12, 14), (15, 26)] := by
  decide +kernel

end ProseLang
