import Mathlib.Data.List.TakeWhile
import ProseLang.Proofs.Grammar.Depth
import ProseLang.Proofs.Grammar.Source
import ProseLang.Proofs.Token.LayoutGrammar

/-!
# Every construct keeps the depth of blocks

There is one lemma for each production, over parsers of what is nested in it that keep the depth and
move forward (`Nested.Level`). The constructs with a block of their own read to the end of the
block, whatever fails within it, so they find its dedent and an error leaves them outside of it.
Main statement: `parser_keeps_depth`, for every stream of balanced tokens.
-/

namespace ProseLang

variable {α β : Type} {c d : Cursor} {n : Nat} {g : Nested}

/-- Whether parsers of nested constructs keep the depth of blocks and move forward. -/
structure Nested.Level (g : Nested) : Prop where
  value : ∀ pipes, ProseLang.Level (g.value pipes)
  statement : ∀ pipes, KeepsDepth (g.statement pipes)
  properties : ∀ pipes, ProseLang.Level (g.properties pipes)
  forward : ∀ n, g.Forward n g

namespace Parser

/-! ## Without anything nested -/

private theorem modifierKey?_level : Level modifierKey? := by
  refine .peek fun c hc ↦ ?_
  split
  · next word hk =>
    change LevelAt c (if c.next.kind ≠ .symbol .colon then _ else _)
    split
    · exact Level.cursor (fun c hc ↦ LevelAt.bind_of_error rfl (.refl c)) c hc
    · next colon =>
      -- the token after the name is the colon that was seen
      have hne : c.rest ≠ [] := Cursor.Ahead.ne_nil ⟨hc.final, Nat.lt_succ_self _⟩
        (by rw [hk]; nofun)
      have named : name "a modifier name" c = (.ok ⟨word, c.current.span⟩, c.advance) := by
        have seen : peek c = (.ok (.identifier word), c) := by
          rw [← hk]
          rfl
        rw [name, bind_apply seen]
        rfl
      refine .bind_of_run named (.advance (by rw [hk]; rfl)) ?_
      refine .take_bind (hc.passes (.advance c)) ?_ fun _ ↦ .pure _
      rw [Cursor.current_advance hne, Decidable.not_not.1 colon]
      rfl
  · exact Level.pure _ c hc

private theorem modifierValue_level : Level modifierValue := by
  refine .peek fun c hc ↦ ?_
  split
  · exact (string_level _).map c hc
  · next hk => exact .take_bind hc (by rw [hk]; rfl) fun _ ↦ .pure _
  · exact Level.cursor (fun c hc ↦ Level.throw _ c hc) c hc
  · exact Level.unexpected _ c hc

private theorem modifier_level : Level modifier := by
  refine .cursor fun c hc ↦ ?_
  refine Level.bind modifierKey?_level (fun key ↦ ?_) c hc
  exact modifierValue_level.bind fun value ↦ .close

private theorem modifiers_level : Level modifiers :=
  (symbol_level _).bind fun _ ↦ commaList_level _ modifier_level

private theorem modifiers?_level : Level modifiers? := by
  refine (atSymbol_level _).bind fun b ↦ ?_
  split
  · exact modifiers_level
  · exact .pure _

private theorem contextNames_level (hc : c.Closes) (hk : c.current.kind.depth = 0)
    (close : Punctuation) (make : List Ident → Context) : LevelAt c (contextNames close make) :=
  .take_bind hc hk fun _ ↦ (commaList_level close (name_level _)).bind fun _ ↦ .pure _

private theorem context_level : Level context := by
  refine .peek fun c hc ↦ ?_
  split
  · exact (name_level _).map c hc
  · next hk => exact contextNames_level hc (by rw [hk]; rfl) _ _
  · next hk => exact contextNames_level hc (by rw [hk]; rfl) _ _
  · exact Level.unexpected _ c hc

private theorem propertyKey_level : Level propertyKey := by
  refine .peek fun c hc ↦ ?_
  split
  · next word hk =>
    -- the word is taken where the cursor stood before the look ahead
    change LevelAt c (if c.next.kind = .symbol .colon then _ else _)
    split
    · exact LevelAt.take_bind hc (by rw [hk]; rfl) fun _ ↦ .pure _
    · exact name_level _ c hc
  · exact name_level _ c hc

/-- A name that may be there or not. -/
theorem name_optional_level (hc : c.Closes) {role : String} {k : Option Ident → Parser α}
    (hk : ∀ x, Level (k x)) :
    LevelAt c (match c.current.kind with
      | .identifier _ => some <$> name role >>= k
      | _ => pure none >>= k) := by
  split
  · exact (name_level role).map.bind hk c hc
  · exact (Level.pure none).bind hk c hc

/-- A string that may be there or not. -/
theorem string_optional_level (hc : c.Closes) {role : String} {k : Option StringLit → Parser α}
    (hk : ∀ x, Level (k x)) :
    LevelAt c (match c.current.kind with
      | .string _ => some <$> string role >>= k
      | _ => pure none >>= k) := by
  split
  · exact (string_level role).map.bind hk c hc
  · exact (Level.pure none).bind hk c hc

private theorem importSkill_level : Level importSkill :=
  (keyword_level _).bind fun _ ↦ (string_level _).bind fun _ ↦ (keyword_level _).bind fun _ ↦
    (string_level _).bind fun _ ↦ .close

private theorem throwStatement_level : Level throwStatement := by
  refine (keyword_level _).bind fun first ↦ ?_
  exact .peek fun c hc ↦ string_optional_level hc fun message ↦ .close

private theorem asBinding?_level : Level asBinding? := by
  refine (take?_level rfl).bind fun r ↦ ?_
  split
  · exact (name_level _).bind fun _ ↦ .pure _
  · exact .pure _

private theorem loopCondition?_level : Level loopCondition? := by
  have condition {c : Cursor} (hc : c.Closes) (hk : c.current.kind.depth = 0)
    (kind : ConditionKind) :
      LevelAt c (some <$> loopCondition kind) := by
    rw [map_eq_pure_bind]
    refine .bind hc ?_ fun _ ↦ .pure _
    exact .take_bind hc hk fun _ ↦ (discretion_level _).bind fun _ ↦ .pure _
  refine .peek fun c hc ↦ ?_
  split
  · next hk => exact condition hc (by rw [hk]; rfl) .until_
  · next hk => exact condition hc (by rw [hk]; rfl) .while_
  · exact Level.pure _ c hc

private theorem pipeNames_level (operator : PipeOperator) : Level (pipeNames operator) := by
  rw [pipeNames]
  split
  · exact (symbol_level _).bind fun _ ↦ (name_level _).bind fun _ ↦ (symbol_level _).bind fun _ ↦
      (name_level _).bind fun _ ↦ (symbol_level _).bind fun _ ↦ .pure _
  · refine (symbol?_level _).bind fun b ↦ ?_
    split
    · exact (name_level _).bind fun _ ↦ (symbol_level _).bind fun _ ↦ .pure _
    · exact .pure _

/-! ## Bodies -/

/-- A round within a block keeps the depth, and so does any other one that does not start at a
dedent. -/
theorem statementRound_keepsDepthAt (inBlock : Bool) {statement : StatementParser}
    (h : KeepsDepth statement) (hc : c.Closes)
    (apart : inBlock = true ∨ c.skipNewlines.current.kind ≠ .dedent) :
    KeepsDepthAt c (statementRound statement inBlock) := by
  have skipped := Cursor.OnLevel.skipNewlines c
  have closes := skipped.closes hc
  rw [KeepsDepthAt, statementRound_apply]
  split
  · exact skipped
  · next hk =>
    rcases apart with rfl | other
    · exact skipped
    · exact absurd hk other
  · exact skipped.trans (.recover closes _)
  · have read := h _ closes
    refine (skipped.trans read).trans ?_
    cases (statement c.skipNewlines).1.2 with
    | none => exact recovering_keepsDepth endStatement_level _ (read.closes closes)
    | some e => exact .recover (read.closes closes) e

private theorem statementRound_keepsDepth {statement : StatementParser} (h : KeepsDepth statement) :
    KeepsDepth (statementRound statement true) :=
  fun _ hc ↦ statementRound_keepsDepthAt true h hc (.inl rfl)

private theorem statementRound_endsWithBlock (statement : StatementParser) :
    EndsWithBlock (statementRound statement true) := by
  intro c xs e d run
  rw [statementRound_apply] at run
  split at run
  · next hk =>
    cases run
    exact .inr ⟨rfl, .inr hk⟩
  · next hk =>
    cases run
    exact .inr ⟨rfl, .inl hk⟩
  · cases run
    exact .inl rfl
  · cases run
    exact .inl rfl

private theorem statements_readsBlock {statement : StatementParser} (h : KeepsDepth statement)
    (moves : ∀ n, Moves n (fun r ↦ ifNone 1 r.2) statement statement) :
    ReadsBlock (liftM (statements statement true) : Parser (List Statement)) :=
  rounds_readsBlock (statementRound_keepsDepth h) (statementRound_endsWithBlock statement)
    fun n ↦ statementRound_moves true (moves n)

section Nested

variable (hg : g.Level) (pipes : Bool)
include hg

private theorem property_level : Level (property g pipes) := by
  refine propertyKey_level.bind fun key ↦ (symbol_level _).bind fun _ ↦ ?_
  have close {p : Parser PropertyValue} (hp : Level p) :
      Level (do let value ← p; return ({ key, value, span := ← spanFrom key.span } : Property)) :=
    hp.bind fun _ ↦ .close
  refine .cursor fun c hc ↦ ?_
  split
  · exact close context_level.map c hc
  · split
    · exact close (hg.properties pipes).map c hc
    · exact close (hg.value pipes).map c hc

private theorem propertyRound_keepsDepth : KeepsDepth (propertyRound g pipes) := by
  intro c hc
  have skipped := Cursor.OnLevel.skipBlanks c
  have read := recovering_keepsDepth (property_level hg pipes) _ (skipped.closes hc)
  rw [KeepsDepthAt, propertyRound_apply]
  split
  · exact skipped
  · exact skipped
  · have whole := skipped.trans read
    split
    · next p d run =>
      rw [run] at whole
      exact whole.trans (recovering_keepsDepth endStatement_level d (whole.closes hc))
    · next d run =>
      rw [run] at whole
      exact whole

omit hg in
private theorem propertyRound_endsWithBlock : EndsWithBlock (propertyRound g pipes) := by
  intro c xs e d run
  rw [propertyRound_apply] at run
  split at run
  · next hk =>
    cases run
    exact .inr ⟨rfl, .inl hk⟩
  · next hk =>
    cases run
    exact .inr ⟨rfl, .inr hk⟩
  · split at run <;>
    · cases run
      exact .inl rfl

private theorem propertyBlock_level : Level (propertyBlock g pipes) := by
  have moves (n : Nat) := (propertyRound_moves (hg.forward n) pipes).mono (Nat.le_succ n)
  refine (expect_level rfl).bind fun _ ↦ .block ?_ fun _ ↦ .pure _
  exact rounds_readsBlock (propertyRound_keepsDepth hg pipes)
    (propertyRound_endsWithBlock pipes) moves

private theorem inlineProperties_level : Level (inlineProperties g pipes) :=
  (symbol_level _).bind fun _ ↦ commaList_level _ (property_level hg pipes)

private theorem sessionDetails_level (s : Session) : Level (sessionDetails g pipes s) := by
  have block (s : Session) : Level (do s.withProperties (← propertyBlock g pipes)) :=
    (propertyBlock_level hg pipes).bind fun _ ↦ .lift _
  refine .peek fun c hc ↦ ?_
  split
  · refine Level.bind (name_level _) (fun agent ↦ .cursor fun c hc ↦ ?_) c hc
    split
    · exact block _ c hc
    · exact Level.pure _ c hc
  · exact (inlineProperties_level hg pipes).bind (fun _ ↦ .lift _) c hc
  · refine Level.cursor (fun c hc ↦ ?_) c hc
    split
    · exact block _ c hc
    · exact Level.missingBlock _ c hc

private theorem session_level : Level (session g pipes) := by
  refine (keyword_level _).bind fun first ↦ ?_
  refine .peek fun c hc ↦ name_optional_level hc fun name ↦ ?_
  refine .peek fun c hc ↦ string_optional_level hc fun prompt ↦ ?_
  refine modifiers?_level.bind fun ms ↦ (Level.lift _).bind fun s ↦
    (symbol?_level _).bind fun b ↦ ?_
  split
  · exact (sessionDetails_level hg pipes s).bind fun _ ↦ .close
  · exact (Level.pure s).bind fun _ ↦ .close

private theorem agent_level : Level (agent g pipes) := by
  refine (keyword_level _).bind fun first ↦ (name_level _).bind fun name ↦ ?_
  refine (symbol_level _).bind fun _ ↦ .cursor fun c hc ↦ ?_
  have properties {p : Parser Unit} (hp : Level p) (a : Agent) :
      Level (do p; let a ← a.withProperties (← propertyBlock g pipes)
                return { a with span := ← spanFrom first }) :=
    hp.bind fun _ ↦ (propertyBlock_level hg pipes).bind fun _ ↦ (Level.lift _).bind fun _ ↦ .close
  split
  · exact properties (.missingBlock _) _ c hc
  · exact properties (p := pure ()) (.pure ()) _ c hc

/-! ## Bodies and values -/

private theorem indentedBody_level (hc : c.Closes) (h : c.atBlock = true) :
    LevelAt c (indentedBody g) :=
  .atBlock (statements_readsBlock (hg.statement true) fun n ↦ (hg.forward n).statement true)
    (fun _ ↦ .pure _) hc h

private theorem blockBody_level (construct : Construct) : Level (blockBody g construct) := by
  refine .cursor fun c hc ↦ ?_
  split
  · next h => exact indentedBody_level hg hc h
  · exact Level.missingBlock _ c hc

private theorem blockBody?_level : Level (blockBody? g) := by
  refine .cursor fun c hc ↦ ?_
  split
  · next h => exact indentedBody_level hg hc h
  · exact Level.pure _ c hc

private theorem block_level (construct : Construct) : Level (block g construct) :=
  (symbol_level _).bind fun _ ↦ blockBody_level hg construct

private theorem doAction_level : Level (doAction g pipes) := by
  refine (keyword_level _).bind fun first ↦ (atSymbol_level _).bind fun b ↦ ?_
  split
  · exact (block_level hg _).bind fun _ ↦ .close
  · exact (name_level _).bind fun _ ↦ (parenthesized?_level (hg.value pipes)).bind fun _ ↦ .close

private theorem objectEntry_level : Level (objectEntry g pipes) := by
  refine (name_level _).bind fun key ↦ (symbol?_level _).bind fun b ↦ ?_
  split
  · exact (hg.value pipes).map.bind fun _ ↦ .pure _
  · exact (Level.pure none).bind fun _ ↦ .pure _

private theorem primary_level : Level (primary g pipes) := by
  refine .peek fun c hc ↦ ?_
  split
  · exact (session_level hg pipes).bind (fun _ ↦ .pure _) c hc
  · exact (doAction_level hg pipes).map c hc
  · exact (string_level _).map c hc
  · next hk => exact .take_bind hc (by rw [hk]; rfl) fun _ ↦ .pure _
  · exact (name_level _).map c hc
  · exact (discretion_level _).map c hc
  · next hk =>
    exact .take_bind hc (by rw [hk]; rfl) fun _ ↦
      (commaList_level _ (hg.value pipes)).bind fun _ ↦ .close
  · next hk =>
    exact .take_bind hc (by rw [hk]; rfl) fun _ ↦
      (commaList_level _ (objectEntry_level hg pipes)).bind fun _ ↦ .close
  · exact Level.unexpected _ c hc

private theorem inlineBody_level : Level (inlineBody g) := by
  refine .peek fun c hc ↦ ?_
  split
  · exact Level.missingBlock _ c hc
  · exact Level.missingBlock _ c hc
  · exact Level.missingBlock _ c hc
  · refine Level.bind (.of_step (hg.statement false)) (fun r ↦ ?_) c hc
    rcases r with ⟨read, e | e⟩
    · exact .pure _
    · exact .throw _

private theorem pipeOperation_level : Level (pipeOperation g) := by
  refine (expect_level rfl).bind fun first ↦ (name_level _).bind fun name ↦ ?_
  split
  · next operator found =>
    refine (pipeNames_level operator).bind fun names ↦ (symbol_level _).bind fun _ ↦ ?_
    refine .cursor fun c hc ↦ ?_
    split
    · next h => exact .bind hc (indentedBody_level hg hc h) fun _ ↦ .close
    · exact .bind hc (inlineBody_level hg c hc) fun _ ↦ .close
  · exact .throw _

private theorem pipeTail_level (input : Expr) (first : Span) : Level (pipeTail g input first) :=
  (manyWhile_level (atSymbol_level _) (pipeOperation_level hg)).bind fun _ ↦ .close

omit hg in
private theorem atPipe_level : Level (atPipe pipes) := (atSymbol_level _).bind fun _ ↦ .pure _

private theorem value_level : Level (value g pipes) := by
  refine .cursor fun c hc ↦ ?_
  refine (primary_level hg pipes).bind (fun input ↦ (atPipe_level pipes).bind fun b ↦ ?_) c hc
  split
  · exact (pipeTail_level hg input _).bind fun _ ↦ .pure _
  · exact .pure _

/-! ## Statements -/

private theorem blockDefinition_level : Level (blockDefinition g) :=
  (keyword_level _).bind fun _ ↦ (name_level _).bind fun _ ↦
    (parenthesized?_level (name_level _)).bind fun _ ↦ (block_level hg _).bind fun _ ↦ .close

private theorem binding_level (kind : BindingKind) : Level (binding g pipes kind) :=
  (keyword_level _).bind fun _ ↦ (name_level _).bind fun _ ↦ (symbol_level _).bind fun _ ↦
    (value_level hg pipes).bind fun _ ↦ .close

private theorem assignment_level : Level (assignment g pipes) :=
  (name_level _).bind fun _ ↦ (symbol_level _).bind fun _ ↦
    (value_level hg pipes).bind fun _ ↦ .close

private theorem forEach_level (parallelKeyword : Option Span) :
    Level (forEach g pipes parallelKeyword) := by
  refine (keyword_level _).bind fun forKeyword ↦ (name_level _).bind fun item ↦ ?_
  refine (symbol?_level _).bind fun b ↦ ?_
  have rest {p : Parser (Option Ident)} (hp : Level p) :
      Level (do
        let index ← p
        let inKeyword ← keyword .in_
        let collection ← primary g pipes
        let body ← block g .forEachBlock
        return ({ item, index, collection, isParallel := parallelKeyword.isSome, forKeyword, inKeyword,
                  body, span := ← spanFrom (parallelKeyword.getD forKeyword) } : ForEach)) :=
    hp.bind fun _ ↦ (keyword_level _).bind fun _ ↦ (primary_level hg pipes).bind fun _ ↦
      (block_level hg _).bind fun _ ↦ .close
  split
  · exact rest (name_level _).map
  · exact rest (.pure _)

private theorem parallel_level : Level (parallel g pipes) := by
  refine (keyword_level _).bind fun first ↦ .at? fun b ↦ ?_
  split
  · exact (forEach_level hg pipes _).bind fun _ ↦ .pure _
  · exact modifiers?_level.bind fun _ ↦ (Level.lift _).bind fun _ ↦ (symbol_level _).bind fun _ ↦
      (blockBody?_level hg).bind fun _ ↦ .close

private theorem repeated_level : Level (repeated g) :=
  (keyword_level _).bind fun _ ↦ (count_level _).bind fun _ ↦ asBinding?_level.bind fun _ ↦
    (block_level hg _).bind fun _ ↦ .close

private theorem loop_level : Level (loop g) :=
  (keyword_level _).bind fun _ ↦ loopCondition?_level.bind fun _ ↦ asBinding?_level.bind fun _ ↦
    modifiers?_level.bind fun _ ↦ (Level.lift _).bind fun _ ↦ (block_level hg _).bind fun _ ↦ .close

omit hg in
/-- A clause that may follow a block, behind comments. -/
theorem clause?_level {word : Keyword} {p : Span → Parser α} (hp : ∀ first, Level (p first)) :
    Level (clause? word p) := by
  refine .cursor fun c hc ↦ ?_
  split
  · next comes =>
    have skipped := Cursor.OnLevel.skipComments c
    refine .bind_of_run (p := move Cursor.skipComments) rfl skipped ?_
    refine .take_bind (skipped.closes hc) ?_ fun t ↦ (hp t.span).map
    rw [(Cursor.current_skipComments comes).1]
    rfl
  · exact Level.pure _ c hc

private theorem attempt_level : Level (attempt g) := by
  refine (keyword_level _).bind fun first ↦ (block_level hg _).bind fun body ↦ ?_
  refine (clause?_level fun first ↦
    asBinding?_level.bind fun _ ↦ (block_level hg _).bind fun _ ↦ .close).bind fun handler ↦ ?_
  refine (clause?_level fun first ↦ (block_level hg _).bind fun _ ↦ .close).bind fun cleanup ↦ ?_
  dsimp only
  split
  · exact (Level.move fun c ↦ .report c _).bind fun _ ↦ .close
  · exact .close

private theorem choiceOption_level : Level (choiceOption g) :=
  (keyword_level _).bind fun _ ↦ (string_level _).bind fun _ ↦
    (block_level hg _).bind fun _ ↦ .close

private theorem choiceRound_keepsDepth : KeepsDepth (choiceRound g) := by
  intro c hc
  have skipped := Cursor.OnLevel.skipBlanks c
  have closes := skipped.closes hc
  rw [KeepsDepthAt, choiceRound_apply]
  split
  · exact skipped
  · exact skipped
  · exact skipped.trans (recovering_keepsDepth (choiceOption_level hg) _ closes)
  · have fails : Level (unexpected "'option'" : Parser ChoiceOption) := .unexpected _
    exact skipped.trans (recovering_keepsDepth fails _ closes)

omit hg in
private theorem choiceRound_endsWithBlock : EndsWithBlock (choiceRound g) := by
  intro c xs e d run
  rw [choiceRound_apply] at run
  split at run
  · next hk =>
    cases run
    exact .inr ⟨rfl, .inl hk⟩
  · next hk =>
    cases run
    exact .inr ⟨rfl, .inr hk⟩
  · cases run
    exact .inl rfl
  · cases run
    exact .inl rfl

private theorem choice_level : Level (choice g) := by
  refine (keyword_level _).bind fun first ↦ (discretion_level _).bind fun criteria ↦ ?_
  refine (symbol_level _).bind fun _ ↦ .cursor fun c hc ↦ ?_
  have options := rounds_readsBlock (choiceRound_keepsDepth hg) choiceRound_endsWithBlock
    fun n ↦ (choiceRound_moves (hg.forward n)).mono (Nat.le_succ n)
  dsimp only
  split
  · exact .bind_of_error rfl (.refl c)
  · next opens =>
    refine .atBlock options (fun options ↦ ?_) hc (by simpa using opens)
    split
    · exact (Level.throw _).bind fun _ ↦ .close
    · exact .close

private theorem branch_level (word : Keyword) : Level (branch g word) :=
  (keyword_level _).bind fun _ ↦ (discretion_level _).bind fun _ ↦
    (block_level hg _).bind fun _ ↦ .close

private theorem conditional_level : Level (conditional g) := by
  refine .cursor fun c hc ↦ (branch_level hg .if_).bind (fun start ↦ ?_) c hc
  have comes : Level (do return (← cursor).comesNext (.keyword .elif)) :=
    .cursor fun c hc ↦ Level.pure _ c hc
  have elif : Level (do move Cursor.skipComments; branch g .elif) :=
    (Level.move fun c ↦ .skipComments c).bind fun _ ↦ branch_level hg .elif
  refine (manyWhile_level comes elif).bind fun more ↦ ?_
  exact (clause?_level fun first ↦ (block_level hg _).bind fun _ ↦ .close).bind
    fun otherwise ↦ .close

private theorem pipeStatement_level : Level (pipeStatement g pipes) := by
  refine .cursor fun c hc ↦ ?_
  refine (primary_level hg pipes).bind (fun input ↦ (atPipe_level pipes).bind fun b ↦ ?_) c hc
  split
  · exact (pipeTail_level hg input _).bind fun _ ↦ .pure _
  · exact .throw _

private theorem oneStatement_level : Level (oneStatement g pipes) := by
  refine .peek fun c hc ↦ ?_
  have pipe : LevelAt c (pipeStatement g pipes) := pipeStatement_level hg pipes c hc
  split
  · next hk => exact .take_bind hc (by rw [hk]; rfl) fun _ ↦ .pure _
  · exact importSkill_level.map c hc
  · exact (agent_level hg pipes).bind (fun _ ↦ .pure _) c hc
  · exact (blockDefinition_level hg).map c hc
  · exact (binding_level hg pipes _).map c hc
  · exact (binding_level hg pipes _).map c hc
  · exact (doAction_level hg pipes).map c hc
  · exact parallel_level hg pipes c hc
  · exact (repeated_level hg).map c hc
  · exact (forEach_level hg pipes _).map c hc
  · exact (loop_level hg).map c hc
  · exact (attempt_level hg).map c hc
  · exact throwStatement_level.map c hc
  · exact (choice_level hg).map c hc
  · exact (conditional_level hg).map c hc
  · refine Level.peekNext (fun next ↦ ?_) c hc
    split
    · exact (assignment_level hg pipes).map
    · exact .cursor fun c hc ↦ Level.throw _ c hc
    · exact pipeStatement_level hg pipes
  · exact pipe
  · exact pipe
  · exact pipe
  · exact pipe
  · exact pipe
  · exact Level.unexpected _ c hc

private theorem sessionRound_keepsDepth : KeepsDepth (sessionRound g pipes) := by
  refine .cursor fun c hc ↦ ?_
  dsimp only
  refine KeepsDepthAt.bind hc (session_level hg pipes c hc) fun r ↦ ?_
  rcases r with e | s
  · exact .pure _
  refine KeepsDepth.bind (take?_level rfl) fun r ↦ ?_
  rcases r with e | _ | arrow
  · exact .pure _
  · refine .cursor fun d hd ↦ ?_
    split
    · refine KeepsDepthAt.bind hd (pipeTail_level hg _ _ d hd) fun r ↦ ?_
      rcases r with e | p
      · exact .pure _
      · exact .pure _
    · exact .refl d
  · refine .cursor fun d hd ↦ ?_
    split
    · exact .refl d
    · exact .refl d

private theorem statement_keepsDepth : KeepsDepth (statement g pipes) := by
  intro c hc
  have level := oneStatement_level hg pipes c hc
  rw [KeepsDepthAt, statement]
  split
  · exact rounds_keepsDepth (sessionRound_keepsDepth hg pipes) c hc
  · rw [KeepsDepthAt, ExceptT.run] at level
    rcases run : oneStatement g pipes c with ⟨e | s, d⟩
    all_goals
      rw [run] at level
      exact level

end Nested

end Parser

namespace Nested

private theorem Level.deeper (hg : g.Level) : g.deeper.Level where
  value := Parser.value_level hg
  statement := Parser.statement_keepsDepth hg
  properties := Parser.propertyBlock_level hg
  forward n := by
    cases n with
    | zero => constructor <;> exact fun _ c hc ↦ absurd hc.length_lt (Nat.not_lt_zero _)
    | succ n => exact (hg.forward n).deeper

private theorem level_upTo (depth : Nat) : (upTo depth).Level := by
  induction depth with
  | zero =>
    refine ⟨fun _ ↦ .unexpected _, fun _ c _ ↦ .refl c, fun _ ↦ .unexpected _, fun n ↦ ?_⟩
    exact ⟨fun _ ↦ .unexpected _, fun _ c _ ↦ ⟨rfl, .refl c, Nat.le_refl _⟩, fun _ ↦ .unexpected _⟩
  | succ depth ih => exact ih.deeper

end Nested

/-! ## Productions and loops -/

/-- Whether a production is to end on the level where it starts: it does not take a token that may
be an indent or a dedent, and does not go on behind the end of a block. -/
def Production.isLevel : Production β → Bool
  | take => false
  | take? kind | expect kind => kind.depth = 0
  | statements inBlock => inBlock
  | _ => true

/-- Whether a loop reads a block. -/
def GrammarLoop.readsBlock : GrammarLoop α → Bool
  | statements inBlock => inBlock
  | options | properties => true
  | _ => false

open ProseLang.Parser

private theorem Production.keepsDepth (hg : g.Level) (pipes : Bool) (p : Production β)
    (h : p.isLevel = true) : KeepsDepth (p.run g pipes) := by
  cases p with
  | take => cases h
  | take? kind => exact take?_level (of_decide_eq_true h)
  | expect kind => exact expect_level (of_decide_eq_true h)
  | name role => exact name_level role
  | string role => exact string_level role
  | discretion role => exact discretion_level role
  | count role => exact count_level role
  | synchronize => exact KeepsDepth.modify fun _ ↦ .synchronize
  | endStatement => exact endStatement_level
  | statements inBlock =>
    obtain rfl : inBlock = true := h
    exact rounds_keepsDepth (statementRound_keepsDepth (statement_keepsDepth hg pipes))
  | block construct => exact block_level hg construct
  | blockBody construct => exact blockBody_level hg construct
  | blockBody? => exact blockBody?_level hg
  | inlineBody => exact inlineBody_level hg.deeper
  | value => exact value_level hg pipes
  | primary => exact primary_level hg pipes
  | pipeOperation => exact pipeOperation_level hg
  | pipeTail input first => exact pipeTail_level hg input first
  | context => exact context_level
  | modifiers => exact modifiers_level
  | propertyKey => exact propertyKey_level
  | property => exact property_level hg pipes
  | propertyBlock => exact propertyBlock_level hg pipes
  | inlineProperties => exact inlineProperties_level hg pipes
  | session => exact session_level hg pipes
  | agent => exact agent_level hg pipes
  | importSkill => exact importSkill_level
  | blockDefinition => exact blockDefinition_level hg
  | binding kind => exact binding_level hg pipes kind
  | assignment => exact assignment_level hg pipes
  | doAction => exact doAction_level hg pipes
  | parallel => exact parallel_level hg pipes
  | repeated => exact repeated_level hg
  | forEach parallelKeyword => exact forEach_level hg pipes parallelKeyword
  | loop => exact loop_level hg
  | asBinding? => exact asBinding?_level
  | attempt => exact attempt_level hg
  | throwStatement => exact throwStatement_level
  | choiceOption => exact choiceOption_level hg
  | choice => exact choice_level hg
  | branch word => exact branch_level hg word
  | conditional => exact conditional_level hg
  | pipeStatement => exact pipeStatement_level hg pipes
  | statement => exact statement_keepsDepth hg pipes

/-- A loop that reads a block keeps the depth and comes to the end of the block. -/
theorem GrammarLoop.reads_block (hg : g.Level) (pipes : Bool) (l : GrammarLoop α)
    (h : l.readsBlock = true) :
    KeepsDepth (l.round g pipes) ∧ EndsWithBlock (l.round g pipes) := by
  cases l with
  | statements inBlock =>
    obtain rfl : inBlock = true := h
    exact ⟨statementRound_keepsDepth (statement_keepsDepth hg pipes),
      statementRound_endsWithBlock _⟩
  | options => exact ⟨choiceRound_keepsDepth hg, choiceRound_endsWithBlock⟩
  | properties => exact ⟨propertyRound_keepsDepth hg pipes, propertyRound_endsWithBlock pipes⟩
  | _ => cases h

/-- Whether the rounds of a loop come by a cursor. -/
inductive Reached (round : StateM Cursor (List α × RoundEnd)) (start : Cursor) : Cursor → Prop
  | start : Reached round start start
  | again {c d : Cursor} {read : List α} (h : Reached round start c)
      (run : round c = ((read, .again), d)) : Reached round start d

/-- Outside of blocks no round of reading statements starts at a dedent. -/
theorem Reached.outside {start : Cursor} {statement : StatementParser} (h : KeepsDepth statement)
    (hc : start.Closes) (outside : nesting start.rest = 0)
    (reached : Reached (statementRound statement false) start c) :
    start.OnLevel c ∧ c.skipNewlines.current.kind ≠ .dedent := by
  have apart {d : Cursor} (level : start.OnLevel d) : d.skipNewlines.current.kind ≠ .dedent := by
    have skipped := level.trans (.skipNewlines d)
    exact (skipped.closes hc).kind_ne_dedent (skipped.nesting_rest.trans outside)
  induction reached with
  | start => exact ⟨.refl _, apart (.refl _)⟩
  | again reached run ih =>
    obtain ⟨level, other⟩ := ih
    have round := statementRound_keepsDepthAt false h (level.closes hc) (.inr other)
    rw [KeepsDepthAt, run] at round
    exact ⟨level.trans round, apart (level.trans round)⟩

/-! ## Streams -/

/-- Whether the indents and dedents of some tokens balance, and the file ends at the last token at
most. -/
structure BalancedStream (ts : List Token) : Prop where
  balanced : Balanced ts
  ended : ∀ t ∈ ts.dropLast, t.kind ≠ .endOfFile

instance (ts : List Token) : Decidable (BalancedStream ts) :=
  decidable_of_iff (Balanced ts ∧ ∀ t ∈ ts.dropLast, t.kind ≠ .endOfFile)
    ⟨fun h ↦ ⟨h.1, h.2⟩, fun h ↦ ⟨h.1, h.2⟩⟩

/-- The number of blocks around a place of a stream. -/
def Cursor.depthAt (start c : Cursor) : Int := nesting (start.rest.take (start.index c))

/-- Whether a place of a stream is as deep as one before it, and no place between them is less
deep. -/
structure Cursor.StaysAt (start c d : Cursor) : Prop where
  onward : start.index c ≤ start.index d
  same : start.depthAt d = start.depthAt c
  above : ∀ k, start.index c ≤ k → k ≤ start.index d → start.depthAt c ≤ nesting (start.rest.take k)

/-- Whether the parser keeps the depth of blocks at every place of a stream. -/
structure Cursor.KeepsDepths (start : Cursor) : Prop where
  /-- No place is less deep than the start. -/
  nonneg : ∀ c, start.Passes c → 0 ≤ start.depthAt c
  /-- Whether it gives something or fails, a production leaves the cursor as deep as it was. -/
  productions : ∀ (n : Nat) (flag : Bool) (c : Cursor) {β : Type} (p : Production β),
    start.Passes c → p.isLevel = true → start.StaysAt c (p.run (Nested.upTo n) flag c).2
  /-- A loop that reads a block ends at its dedent. -/
  blocks : ∀ (n : Nat) (flag : Bool) (c : Cursor) {α : Type} (l : GrammarLoop α),
    start.Passes c → l.readsBlock = true → 0 < start.depthAt c →
    start.StaysAt c (rounds (l.round (Nested.upTo n) flag) c).2
      ∧ (rounds (l.round (Nested.upTo n) flag) c).2.current.kind = .dedent
  /-- Outside of blocks no statement is looked for at a dedent. -/
  outside : ∀ (n : Nat) (flag : Bool) (c : Cursor),
    Reached ((GrammarLoop.statements false).round (Nested.upTo n) flag) start c →
    start.depthAt c = 0 ∧ c.skipNewlines.current.kind ≠ .dedent

section

variable {ts us : List Token} {k : Option TokenKind} {start : Cursor}

private theorem Lined.climbs (h : Lined ts) : Climbs (openBlocks ts) ts := by
  induction ts with
  | nil => exact .nil
  | cons t ts ih =>
    obtain ⟨-, opens, -, lined⟩ := h
    refine (ih lined).cons ?_
    by_cases hd : t.kind = .dedent
    · rw [openBlocks_cons_dedent _ hd, hd, TokenKind.depth]
      omega
    · by_cases hi : t.kind = .indent
      · have := opens hi
        rw [openBlocks_cons_indent _ hi, hi, TokenKind.depth]
        omega
      · rw [openBlocks_cons_of_flat _ hi hd, TokenKind.depth_eq_zero hi hd]
        omega

/-- The tokens of every text are balanced. -/
theorem balancedStream_tokenize (source : String) : BalancedStream (tokenize source).tokens := by
  obtain ⟨lined, opens⟩ := lined_tokensOf source.toList
  rw [tokenize, tokens_tokenizeChars]
  constructor
  · refine (Climbs.balanced ?_).append (.of_flat (by simp [TokenKind.depth]))
    exact opens ▸ lined.climbs
  · rw [List.dropLast_concat]
    exact fun t ht ↦ lined.kind_ne_endOfFile ht

/-- Leaving out comments leaves the depths of a stream. -/
theorem nesting_take_withoutTrailingComments (ts : List Token) (j : Nat) :
    ∃ i, nesting ((withoutTrailingComments k ts).take j) = nesting (ts.take i)
      ∧ nesting (withoutTrailingComments k ts) = nesting ts := by
  induction ts generalizing k j with
  | nil => exact ⟨0, by simp [withoutTrailingComments], rfl⟩
  | cons t ts ih =>
    rw [withoutTrailingComments]
    split
    · next omitted =>
      obtain ⟨comment, -⟩ := Bool.and_eq_true_iff.1 omitted
      obtain ⟨i, same, whole⟩ := ih (k := k) j
      have flat := TokenKind.depth_eq_zero_of_isComment comment
      exact ⟨i + 1, by simp [flat, same], by simp [flat, whole]⟩
    · cases j with
      | zero =>
        obtain ⟨-, -, whole⟩ := ih (k := some t.kind) 0
        exact ⟨0, rfl, by simp [whole]⟩
      | succ j =>
        obtain ⟨i, same, whole⟩ := ih (k := some t.kind) j
        exact ⟨i + 1, by simp [same], by simp [whole]⟩

private theorem Balanced.withoutTrailingComments (h : Balanced ts) :
    Balanced (withoutTrailingComments k ts) where
  nesting_eq := by
    obtain ⟨-, -, whole⟩ := nesting_take_withoutTrailingComments (k := k) ts 0
    rw [whole, h.nesting_eq]
  nonneg j := by
    obtain ⟨i, same, -⟩ := nesting_take_withoutTrailingComments (k := k) ts j
    rw [same]
    exact h.nonneg i

private theorem Balanced.of_append_flat (h : Balanced (ts ++ us))
    (flat : ∀ t ∈ us, t.kind.depth = 0) : Balanced ts where
  nesting_eq := by
    have := h.nesting_eq
    rwa [nesting_append, (Balanced.of_flat flat).nesting_eq, Int.add_zero] at this
  nonneg k := by
    have := h.nonneg (min k ts.length)
    rwa [List.take_append_of_le_length (Nat.min_le_right _ _), ← List.take_take, List.take_length]
      at this

/-- The tokens before the end of the file are balanced as well. -/
theorem BalancedStream.rest (h : BalancedStream ts) :
    Balanced (Cursor.ofTokens (ProseLang.withoutTrailingComments none ts)).rest := by
  obtain ⟨balanced, ended⟩ := h
  rcases List.eq_nil_or_concat ts with rfl | ⟨body, t, rfl⟩
  · exact .nil
  rw [List.concat_eq_append] at *
  rw [List.dropLast_concat] at ended
  have inside {k : Option TokenKind} :
      ∀ u ∈ ProseLang.withoutTrailingComments k body, decide (u.kind ≠ .endOfFile) = true :=
        fun u hu ↦
    decide_eq_true (ended u (mem_of_mem_withoutTrailingComments hu))
  rw [Cursor.ofTokens]
  by_cases hk : t.kind = .endOfFile
  · have stays (k : Option TokenKind) : ProseLang.withoutTrailingComments k [t] = [t] := by
      simp [ProseLang.withoutTrailingComments, hk, TokenKind.isComment]
    rw [withoutTrailingComments_append, stays]
    dsimp only
    rw [List.takeWhile_append_of_pos inside, List.takeWhile_cons_of_neg (by simp [hk]),
      List.append_nil]
    exact (balanced.of_append_flat (by simp [hk, TokenKind.depth])).withoutTrailingComments
  · have all : ∀ u ∈ ProseLang.withoutTrailingComments none (body ++ [t]),
        decide (u.kind ≠ .endOfFile) = true := fun u hu ↦ by
      rcases List.mem_append.1 (mem_of_mem_withoutTrailingComments hu) with among | last
      · exact decide_eq_true (ended u among)
      · exact decide_eq_true (List.mem_singleton.1 last ▸ hk)
    dsimp only
    rw [List.takeWhile_eq_self_iff.2 all]
    exact balanced.withoutTrailingComments

private theorem BalancedStream.closes (h : BalancedStream ts) :
    (Cursor.ofTokens (ProseLang.withoutTrailingComments none ts)).Closes where
  final := final_ofTokens _
  inside := (Cursor.Passes.refl _).kind_ne_endOfFile
  closed := h.rest.nesting_drop_le

private theorem Cursor.Passes.index (h : start.Passes c) :
    start.rest = start.rest.take (start.index c) ++ c.rest := by
  rw [h.inRange.rest, List.take_append_drop]

/-- The blocks around a place are those that are closed after it. -/
theorem Cursor.Passes.depthAt (h : start.Passes c) (even : nesting start.rest = 0) :
    start.depthAt c = -nesting c.rest := by
  have split := congrArg nesting h.index
  rw [nesting_append, even] at split
  rw [Cursor.depthAt]
  omega

/-- What is taken on one level of a stream stays there. -/
theorem Cursor.Passes.staysAt (h : start.Passes c) (level : c.OnLevel d) : start.StaysAt c d := by
  obtain ⟨⟨taken, rest, balanced⟩, -⟩ := level
  have whole := h.index
  have length : start.index d = start.index c + taken.length := by
    have := congrArg List.length whole
    have := h.inRange.index_le
    simp only [Cursor.index, List.length_append, List.length_take, rest] at *
    omega
  -- a place among what is taken is as much deeper as the tokens up to it lead
  have between (j : Nat) (hj : j ≤ taken.length) :
      nesting (start.rest.take (start.index c + j)) = start.depthAt c + nesting (taken.take j) := by
    rw [Cursor.depthAt, ← nesting_append]
    rw [List.take_add, ← h.inRange.rest, rest, List.take_append_of_le_length hj]
  refine ⟨by omega, ?_, fun k low high ↦ ?_⟩
  · rw [Cursor.depthAt, length, between _ (Nat.le_refl _), List.take_length, balanced.nesting_eq,
      Int.add_zero]
  · obtain ⟨j, rfl⟩ := Nat.exists_eq_add_of_le low
    rw [between j (by omega)]
    have := balanced.nonneg j
    omega

/-- The tokens of every text are balanced, and in every stream of balanced tokens the parser keeps
the depth of blocks, so that it finds the end of each block and no other one. -/
theorem parser_keeps_depth :
    (∀ source : String, BalancedStream (tokenize source).tokens)
      ∧ ∀ ts, BalancedStream ts →
        (Cursor.ofTokens (withoutTrailingComments none ts)).KeepsDepths := by
  refine ⟨balancedStream_tokenize, fun ts stream ↦ ?_⟩
  have even := stream.rest.nesting_eq
  constructor
  · intro c passes
    rw [Cursor.depthAt]
    exact stream.rest.nonneg _
  · intro n flag c β p passes level
    exact passes.staysAt (p.keepsDepth (Nested.level_upTo n) flag level c
      (stream.closes.passes passes))
  · intro n flag c α l passes reads within
    obtain ⟨keeps, ends⟩ := l.reads_block (Nested.level_upTo n) flag reads
    have closes := stream.closes.passes passes
    have moves (m : Nat) : Moves m (fun r ↦ r.2.takes 0) (l.round (Nested.upTo n) flag)
        (l.round (Nested.upTo n) flag) :=
      (l.moves ((Nested.level_upTo n).forward m) flag).mono (Nat.le_succ m)
    rw [passes.depthAt even] at within
    exact ⟨passes.staysAt (rounds_keepsDepth keeps c closes),
      rounds_current keeps ends moves closes (by omega)⟩
  · intro n flag c reached
    have keeps := Parser.statement_keepsDepth (Nested.level_upTo n) flag
    obtain ⟨level, other⟩ := Reached.outside keeps stream.closes even reached
    have start := (Cursor.Passes.refl (Cursor.ofTokens
      (withoutTrailingComments none ts))).staysAt level
    refine ⟨start.same.trans ?_, other⟩
    rw [(Cursor.Passes.refl _).depthAt even, even, Int.neg_zero]

/-- Within a block whose line does not end, with one of its own that no construct reads. -/
theorem parser_keeps_depth_of_unread :
    let unread : List Token := [.keyword .choice, .indent, .invalid, .indent, .newline, .dedent,
      .dedent, .endOfFile].map fun kind ↦ ⟨kind, .nowhere⟩
    let start := Cursor.ofTokens (withoutTrailingComments none unread)
    BalancedStream unread ∧ start.depthAt (start.skip 2) = 1
      ∧ start.StaysAt (start.skip 2) (Production.statement.run (Nested.upTo 7) true
        (start.skip 2)).2
      ∧ (rounds ((GrammarLoop.statements true).round (Nested.upTo 7) true)
          (start.skip 2)).2.current.kind = .dedent := by
  intro unread start
  have stream : BalancedStream unread := by decide
  have passes : start.Passes (start.skip 2) := .skip start 2
  have within : start.depthAt (start.skip 2) = 1 := by decide
  obtain ⟨-, productions, blocks, -⟩ := parser_keeps_depth.2 unread stream
  exact ⟨stream, within, productions 7 true _ .statement passes rfl,
    (blocks 7 true _ (.statements true) passes rfl (within ▸ Int.one_pos)).2⟩

end

end ProseLang
