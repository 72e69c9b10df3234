import ProseLang.Proofs.Grammar.Progress

/-!
# Every construct moves forward

There is one lemma for each production, over parsers of what is nested in it that do the same and
move forward where one token less is ahead (`Nested.Forward`). All of them come to what is nested
only after a token, so the parsers that nest `n` constructs do the same wherever less than `n`
tokens are ahead, whatever is nested in the innermost of them (`Nested.atop_forward`).
-/

namespace ProseLang

variable {n j : Nat} {g g' : Nested}

/-- Whether parsers of nested constructs do the same and move forward wherever less than `n` tokens
are ahead. -/
structure Nested.Forward (n : Nat) (g g' : Nested) : Prop where
  value : ∀ pipes, ProseLang.Forward n 1 (g.value pipes) (g'.value pipes)
  statement : ∀ pipes, Moves n (fun r ↦ ifNone 1 r.2) (g.statement pipes) (g'.statement pipes)
  properties : ∀ pipes, ProseLang.Forward n 1 (g.properties pipes) (g'.properties pipes)

namespace Parser

/-! ## Without anything nested -/

private theorem modifierKey?_forward : Forward n 0 modifierKey? modifierKey? := by
  refine .peek fun c hc ↦ ?_
  split
  · refine Forward.peekNext (fun next ↦ ?_) c hc
    dsimp only
    split
    · exact .cursor fun c hc ↦ Forward.bind (Forward.throw (j := 0) _) (fun _ ↦
        (name_forward _).bind fun _ ↦ take_forward.bind fun _ ↦ .pure _) c hc
    · exact (name_forward _).bind fun _ ↦ take_forward.bind fun _ ↦ .pure _
  · exact Forward.pure _ c hc

private theorem modifierValue_forward : Forward n 1 modifierValue modifierValue := by
  refine .peek fun c hc ↦ ?_
  split
  · exact (string_forward _).map c hc
  · next hk => exact .take_bind hc (by rw [hk]; nofun) fun _ ↦ .pure _
  · exact Forward.cursor (fun c hc ↦ Forward.throw _ c hc) c hc
  · exact Forward.unexpected _ c hc

/-- One of the modifiers in parentheses. -/
def modifier : Parser Modifier := do
  let first := (← cursor).current.span
  let key ← modifierKey?
  let value ← modifierValue
  return { key, value, span := ← spanFrom first }

/-- A modifier takes a token. -/
theorem modifier_forward : Forward n 1 modifier modifier := by
  refine .cursor fun c hc ↦ ?_
  refine Forward.bind modifierKey?_forward (fun key ↦ ?_) c hc
  exact modifierValue_forward.bind fun value ↦ .close

/-- Modifiers take the parentheses around them. -/
theorem modifiers_forward : Forward n 1 modifiers modifiers :=
  (symbol_forward _).bind fun _ ↦ (commaList_forward _ modifier_forward).less (Nat.zero_le 1)

private theorem modifiers?_forward : Forward n 0 modifiers? modifiers? := by
  refine (atSymbol_forward _).bind fun b ↦ ?_
  split
  · exact modifiers_forward.less (Nat.zero_le 1)
  · exact .pure _

private theorem contextNames_forward {c : Cursor} (hc : c.Ahead n)
    (hk : c.current.kind ≠ .endOfFile) (close : Punctuation) (make : List Ident → Context) :
    ForwardAt c 1 (contextNames close make) (contextNames close make) :=
  .take_bind hc hk fun _ ↦ (commaList_forward close (name_forward _)).seq fun _ ↦ .pure _

/-- A context takes a token. -/
theorem context_forward : Forward n 1 context context := by
  refine .peek fun c hc ↦ ?_
  split
  · exact (name_forward _).map c hc
  · next hk => exact contextNames_forward hc (by rw [hk]; nofun) _ _
  · next hk => exact contextNames_forward hc (by rw [hk]; nofun) _ _
  · exact Forward.unexpected _ c hc

/-- The key of a property takes a token. -/
theorem propertyKey_forward : Forward n 1 propertyKey propertyKey := by
  refine .peek fun c hc ↦ ?_
  split
  · next word hk =>
    -- the word is taken where the cursor stood before the look ahead
    change MovesAt c _ (if c.next.kind = .symbol .colon then _ else _)
      (if c.next.kind = .symbol .colon then _ else _)
    split
    · exact ForwardAt.take_bind hc (by rw [hk]; nofun) fun _ ↦ .pure _
    · exact name_forward _ c hc
  · exact name_forward _ c hc

/-- A name that may be there or not. -/
theorem name_optional_forward {α : Type} {c : Cursor} (hc : c.Ahead n) {role : String}
    {k k' : Option Ident → Parser α} (hk : ∀ x, Forward n 0 (k x) (k' x)) :
    ForwardAt c 0 (match c.current.kind with
      | .identifier _ => some <$> name role >>= k
      | _ => pure none >>= k)
    (match c.current.kind with
      | .identifier _ => some <$> name role >>= k'
      | _ => pure none >>= k') := by
  split
  · exact (name_forward role).map.seq hk c hc
  · exact (Forward.pure none).seq hk c hc

/-- A string that may be there or not. -/
theorem string_optional_forward {α : Type} {c : Cursor} (hc : c.Ahead n) {role : String}
    {k k' : Option StringLit → Parser α} (hk : ∀ x, Forward n 0 (k x) (k' x)) :
    ForwardAt c 0 (match c.current.kind with
      | .string _ => some <$> string role >>= k
      | _ => pure none >>= k)
    (match c.current.kind with
      | .string _ => some <$> string role >>= k'
      | _ => pure none >>= k') := by
  split
  · exact (string_forward role).map.seq hk c hc
  · exact (Forward.pure none).seq hk c hc

/-- An import takes a token. -/
theorem importSkill_forward : Forward n 1 importSkill importSkill :=
  (keyword_forward _).bind fun _ ↦ (string_forward _).seq fun _ ↦
    (keyword_forward _).seq fun _ ↦
      (string_forward _).seq fun _ ↦ .close

/-- A `throw` takes a token. -/
theorem throwStatement_forward : Forward n 1 throwStatement throwStatement := by
  refine (keyword_forward _).bind fun first ↦ ?_
  exact .peek fun c hc ↦ string_optional_forward hc fun message ↦ .close

/-- A variable that a header binds may be left out. -/
theorem asBinding?_forward : Forward n 0 asBinding? asBinding? := by
  refine (take?_forward _).bind fun r ↦ ?_
  split
  · exact (name_forward _).seq fun _ ↦ .pure _
  · exact .pure _

private theorem loopCondition?_forward : Forward n 0 loopCondition? loopCondition? := by
  have condition (kind : ConditionKind) :
      Forward n 0 (some <$> loopCondition kind) (some <$> loopCondition kind) :=
    (take_forward.bind fun _ ↦ (discretion_forward _).seq fun _ ↦ .pure _).map
  refine .peek fun c hc ↦ ?_
  split
  · exact condition .until_ c hc
  · exact condition .while_ c hc
  · exact Forward.pure _ c hc

private theorem pipeNames_forward (operator : PipeOperator) :
    Forward n 0 (pipeNames operator) (pipeNames operator) := by
  rw [pipeNames]
  split
  · exact (symbol_forward _).seq fun _ ↦ (name_forward _).seq fun _ ↦ (symbol_forward _).seq fun _ ↦
      (name_forward _).seq fun _ ↦ (symbol_forward _).seq fun _ ↦ .pure _
  · refine (symbol?_forward _).seq fun b ↦ ?_
    split
    · exact (name_forward _).seq fun _ ↦ (symbol_forward _).seq fun _ ↦ .pure _
    · exact .pure _

/-! ## Over what is nested -/

/-- A round of reading statements takes a token if there is another round. -/
theorem statementRound_moves (inBlock : Bool) {statement statement' : StatementParser}
    (h : Moves n (fun r ↦ ifNone 1 r.2) statement statement') :
    Moves n (fun r ↦ r.2.takes 0) (statementRound statement inBlock)
      (statementRound statement' inBlock) := by
  refine .skip (fun c ↦ .skip c _) (.cursor fun c hc ↦ ?_)
  dsimp only
  split
  · exact ⟨rfl, .refl c, Nat.le_refl _⟩
  · next hk =>
    split
    · exact ⟨rfl, .refl c, Nat.le_refl _⟩
    · exact ⟨rfl, .advance c, Nat.le_of_eq (Cursor.length_advance (hc.ne_nil (by rw [hk]; nofun)))⟩
  · next hk =>
    exact ⟨rfl, .recover c _, Cursor.length_recover (hc.ne_nil (by rw [hk]; nofun))
      (by rw [hk]; nofun) _⟩
  · next hend hdedent _ =>
    -- a statement that is read takes a token, and so does one that fails and recovers
    obtain ⟨same, passes, takes⟩ := h c hc
    rcases run : statement c with ⟨⟨read, e | e⟩, d⟩
    all_goals
      rw [run] at same passes takes
      refine .bind_of_run run same.symm ?_
    · have after := (recovering_moves endStatement_forward d (hc.passes passes takes)).passes
      refine ⟨rfl, passes.trans after, Nat.le_trans ?_ takes⟩
      exact Nat.add_le_add_right after.length_le 1
    · exact ⟨rfl, passes.trans (.recover d e),
        passes.takes_recover (hc.ne_nil hend) hdedent e⟩

/-- Statements move forward when each of them takes a token unless it fails. -/
theorem statements_moves (inBlock : Bool) {statement statement' : StatementParser}
    (h : Moves n (fun r ↦ ifNone 1 r.2) statement statement') :
    Moves n (fun _ ↦ 0) (statements statement inBlock) (statements statement' inBlock) := by
  intro c hc
  obtain ⟨same, passes, -⟩ := rounds_moves (Nat.zero_le 1) (statementRound_moves inBlock h) c hc
  refine ⟨?_, passes, passes.length_le⟩
  change ((rounds _ c).1.1, (rounds _ c).2) = ((rounds _ c).1.1, (rounds _ c).2)
  rw [same]

section Nested

variable (hg : g.Forward n g') (pipes : Bool)
include hg

/-- A property takes a token. -/
theorem property_forward : Forward (n + 1) 1 (property g pipes) (property g' pipes) := by
  refine propertyKey_forward.bind fun key ↦ (symbol_forward _).seq fun _ ↦ ?_
  have close {p p' : Parser PropertyValue} (hp : Forward n 0 p p') :
      Forward n 0 (do let value ← p; return ({ key, value, span := ← spanFrom key.span } : Property))
        (do let value ← p'; return { key, value, span := ← spanFrom key.span }) :=
    hp.seq fun _ ↦ .close
  refine .cursor fun c hc ↦ ?_
  split
  · exact close (context_forward.map.less (Nat.zero_le 1)) c hc
  · split
    · exact close ((hg.properties pipes).map.less (Nat.zero_le 1)) c hc
    · exact close ((hg.value pipes).map.less (Nat.zero_le 1)) c hc

/-- A round of reading properties takes a token if there is another round. -/
theorem propertyRound_moves :
    Moves (n + 1) (fun r ↦ r.2.takes 0) (propertyRound g pipes) (propertyRound g' pipes) := by
  refine .skip (fun c ↦ .skipBlanks c) (.cursor fun c hc ↦ ?_)
  split
  · exact ⟨rfl, .refl c, Nat.le_refl _⟩
  · exact ⟨rfl, .refl c, Nat.le_refl _⟩
  · next hdedent hend =>
    refine .bind hc (recovering_movesAt hc (property_forward hg pipes) hend hdedent) fun r ↦ ?_
    cases r with
    | none => exact .pure rfl
    | some p => exact (recovering_moves endStatement_forward).bind fun _ ↦ .pure rfl

/-- A block of properties takes a token. -/
theorem propertyBlock_forward :
    Forward (n + 1) 1 (propertyBlock g pipes) (propertyBlock g' pipes) := by
  refine (expect_forward .newline nofun).bind fun _ ↦ (expect_forward .indent nofun).seq fun _ ↦ ?_
  have gathered := rounds_moves (Nat.zero_le 1)
    ((propertyRound_moves hg pipes).mono (Nat.le_succ n))
  exact (Forward.gather gathered).seq fun ps ↦ (expect_forward .dedent nofun).seq fun _ ↦ .pure _

/-- Properties in braces take the braces. -/
theorem inlineProperties_forward :
    Forward (n + 1) 1 (inlineProperties g pipes) (inlineProperties g' pipes) :=
  (symbol_forward _).bind fun _ ↦
    (commaList_forward _ (property_forward hg pipes).fewer).less (Nat.zero_le 1)

private theorem sessionDetails_forward (s : Session) :
    Forward (n + 1) 0 (sessionDetails g pipes s) (sessionDetails g' pipes s) := by
  have block (s : Session) : Forward (n + 1) 0 (do s.withProperties (← propertyBlock g pipes))
      (do s.withProperties (← propertyBlock g' pipes)) :=
    (propertyBlock_forward hg pipes).seq fun _ ↦ .lift _
  refine .peek fun c hc ↦ ?_
  split
  · refine Forward.seq (name_forward _) (fun agent ↦ .cursor fun c hc ↦ ?_) c hc
    split
    · exact block _ c hc
    · exact Forward.pure _ c hc
  · exact (inlineProperties_forward hg pipes).seq (fun _ ↦ .lift _) c hc
  · refine Forward.cursor (fun c hc ↦ ?_) c hc
    split
    · exact block _ c hc
    · exact Forward.missingBlock _ c hc

/-- A session takes a token. -/
theorem session_forward : Forward (n + 1) 1 (session g pipes) (session g' pipes) := by
  refine (keyword_forward _).bind fun first ↦ ?_
  refine .peek fun c hc ↦ name_optional_forward hc fun name ↦ ?_
  refine .peek fun c hc ↦ string_optional_forward hc fun prompt ↦ ?_
  refine modifiers?_forward.seq fun ms ↦ (Forward.lift _).seq fun s ↦
    (symbol?_forward _).seq fun b ↦ ?_
  split
  · exact (sessionDetails_forward hg pipes s).fewer.seq fun _ ↦ .close
  · exact (Forward.pure s).seq fun _ ↦ .close

/-- The definition of an agent takes a token. -/
theorem agent_forward : Forward (n + 1) 1 (agent g pipes) (agent g' pipes) := by
  refine (keyword_forward _).bind fun first ↦ (name_forward _).seq fun name ↦ ?_
  refine (symbol_forward _).seq fun _ ↦ .cursor fun c hc ↦ ?_
  have properties {p : Parser Unit} (hp : Forward n 0 p p) (a : Agent) :
      Forward n 0 (do p; let a ← a.withProperties (← propertyBlock g pipes)
                      return { a with span := ← spanFrom first })
        (do p; let a ← a.withProperties (← propertyBlock g' pipes)
               return { a with span := ← spanFrom first }) :=
    hp.seq fun _ ↦ (propertyBlock_forward hg pipes).fewer.seq fun _ ↦
      (Forward.lift _).seq fun _ ↦ .close
  split
  · exact properties (.missingBlock _) _ c hc
  · exact properties (p := pure ()) (.pure ()) _ c hc

/-! ## Bodies and values -/

private theorem indentedBody_forward {c : Cursor} (hc : c.Ahead (n + 1)) (h : c.atBlock = true) :
    ForwardAt c 1 (indentedBody g) (indentedBody g') := by
  obtain ⟨hk, -⟩ := Bool.and_eq_true_iff.1 h
  refine ForwardAt.take_bind hc (by rw [of_decide_eq_true hk]; nofun) fun _ ↦ ?_
  refine take_forward.seq fun _ ↦ Forward.seq
    (.of_moves (statements_moves true (hg.statement true))) ?_
  exact fun body ↦ (expect_forward .dedent nofun).seq fun _ ↦ .pure _

/-- The body of a block takes a token. -/
theorem blockBody_forward (construct : Construct) :
    Forward (n + 1) 1 (blockBody g construct) (blockBody g' construct) := by
  refine .cursor fun c hc ↦ ?_
  split
  · next h => exact indentedBody_forward hg hc h
  · exact Forward.missingBlock _ c hc

/-- The body of a block may be left out. -/
theorem blockBody?_forward : Forward (n + 1) 0 (blockBody? g) (blockBody? g') := by
  refine .cursor fun c hc ↦ ?_
  split
  · next h => exact (indentedBody_forward hg hc h).imp fun x ↦ by cases x <;> simp [ifOk]
  · exact Forward.pure _ c hc

/-- A block takes a token. -/
theorem block_forward (construct : Construct) :
    Forward (n + 1) 1 (block g construct) (block g' construct) :=
  (symbol_forward _).bind fun _ ↦ ((blockBody_forward hg construct).fewer).less (Nat.zero_le 1)

/-- A `do` takes a token. -/
theorem doAction_forward : Forward (n + 1) 1 (doAction g pipes) (doAction g' pipes) := by
  refine (keyword_forward _).bind fun first ↦ (atSymbol_forward _).seq fun b ↦ ?_
  split
  · exact (block_forward hg _).fewer.seq fun _ ↦ .close
  · exact (name_forward _).seq fun _ ↦ (parenthesized?_forward (hg.value pipes)).seq fun _ ↦ .close

/-- An entry of an object takes a token. -/
theorem objectEntry_forward : Forward n 1 (objectEntry g pipes) (objectEntry g' pipes) := by
  have value := (hg.value pipes).mono (Nat.sub_le n 1)
  refine (name_forward _).bind fun key ↦ (symbol?_forward _).seq fun b ↦ ?_
  split
  · exact value.map.seq fun _ ↦ .pure _
  · exact (Forward.pure none).seq fun _ ↦ .pure _

/-- A value without a pipe takes a token. -/
theorem primary_forward : Forward (n + 1) 1 (primary g pipes) (primary g' pipes) := by
  refine .peek fun c hc ↦ ?_
  split
  · exact (session_forward hg pipes).bind (fun _ ↦ .pure _) c hc
  · exact (doAction_forward hg pipes).map c hc
  · exact (string_forward _).map c hc
  · next hk => exact .take_bind hc (by rw [hk]; nofun) fun _ ↦ .pure _
  · exact (name_forward _).map c hc
  · exact (discretion_forward _).map c hc
  · next hk =>
    exact .take_bind hc (by rw [hk]; nofun) fun _ ↦
      (commaList_forward _ (hg.value pipes)).seq fun _ ↦ .close
  · next hk =>
    exact .take_bind hc (by rw [hk]; nofun) fun _ ↦
      (commaList_forward _ (objectEntry_forward hg pipes)).seq fun _ ↦ .close
  · exact Forward.unexpected _ c hc

/-- A body in line takes a token. -/
theorem inlineBody_forward : Forward n 1 (inlineBody g) (inlineBody g') := by
  refine .peek fun c hc ↦ ?_
  split
  · exact Forward.missingBlock _ c hc
  · exact Forward.missingBlock _ c hc
  · exact Forward.missingBlock _ c hc
  · refine Forward.bind_of_moves (hg.statement false) (fun r ↦ ?_) c hc
    rcases r with ⟨read, e | e⟩
    · exact .pure _
    · exact .throw _

/-- An operation of a pipe takes a token. -/
theorem pipeOperation_forward : Forward (n + 1) 1 (pipeOperation g) (pipeOperation g') := by
  refine (expect_forward (.symbol .pipe) nofun).bind fun first ↦ (name_forward _).seq fun name ↦ ?_
  split
  · next operator found =>
    refine (pipeNames_forward operator).seq fun names ↦ (symbol_forward _).seq fun _ ↦ ?_
    have close {c : Cursor} (hc : c.Ahead n) {p p' : Parser (List Statement)}
      (hp : ForwardAt c 1 p p') :
        ForwardAt c 0 (do
          let body ← p
          return ({ operator := ⟨operator, name.span⟩, item := names.1, accumulator := names.2, body,
                    span := ← spanFrom first.span } : Operation)) (do
          let body ← p'
          return { operator := ⟨operator, name.span⟩, item := names.1, accumulator := names.2, body,
                   span := ← spanFrom first.span }) := .bind hc hp fun _ ↦ .close
    refine .cursor fun c hc ↦ ?_
    split
    · next h =>
        exact close hc (indentedBody_forward hg ⟨hc.final, Nat.lt_succ_of_lt hc.length_lt⟩ h)
    · exact close hc (inlineBody_forward hg c hc)
  · exact .throw _

/-- The operations of a pipe may be left out. -/
theorem pipeTail_forward (input : Expr) (first : Span) :
    Forward (n + 1) 0 (pipeTail g input first) (pipeTail g' input first) :=
  (manyWhile_forward (atSymbol_forward _) (pipeOperation_forward hg)).seq fun _ ↦ .close

omit hg in
private theorem atPipe_forward : Forward n 0 (atPipe pipes) (atPipe pipes) :=
  (atSymbol_forward _).bind fun _ ↦ .pure _

/-- A value takes a token. -/
theorem value_forward : Forward (n + 1) 1 (value g pipes) (value g' pipes) := by
  refine .cursor fun c hc ↦ ?_
  refine (primary_forward hg pipes).bind (fun input ↦ (atPipe_forward pipes).seq fun b ↦ ?_) c hc
  split
  · exact (pipeTail_forward hg input _).fewer.bind fun _ ↦ .pure _
  · exact .pure _

/-! ## Statements -/

/-- The definition of a block takes a token. -/
theorem blockDefinition_forward : Forward (n + 1) 1 (blockDefinition g) (blockDefinition g') :=
  (keyword_forward _).bind fun _ ↦ (name_forward _).seq fun _ ↦
    (parenthesized?_forward (name_forward _)).seq fun _ ↦
      (block_forward hg _).fewer.seq fun _ ↦ .close

/-- A binding takes a token. -/
theorem binding_forward (kind : BindingKind) :
    Forward (n + 1) 1 (binding g pipes kind) (binding g' pipes kind) :=
  (keyword_forward _).bind fun _ ↦ (name_forward _).seq fun _ ↦ (symbol_forward _).seq fun _ ↦
    (value_forward hg pipes).fewer.seq fun _ ↦ .close

/-- An assignment takes a token. -/
theorem assignment_forward : Forward (n + 1) 1 (assignment g pipes) (assignment g' pipes) :=
  (name_forward _).bind fun _ ↦ (symbol_forward _).seq fun _ ↦
    (value_forward hg pipes).fewer.seq fun _ ↦ .close

/-- A `for` takes a token. -/
theorem forEach_forward (parallelKeyword : Option Span) :
    Forward (n + 1) 1 (forEach g pipes parallelKeyword) (forEach g' pipes parallelKeyword) := by
  refine (keyword_forward _).bind fun forKeyword ↦ (name_forward _).seq fun item ↦ ?_
  refine (symbol?_forward _).seq fun b ↦ ?_
  have rest {p : Parser (Option Ident)} (hp : Forward n 0 p p) :
      Forward n 0 (do
        let index ← p
        let inKeyword ← keyword .in_
        let collection ← primary g pipes
        let body ← block g .forEachBlock
        return ({ item, index, collection, isParallel := parallelKeyword.isSome, forKeyword, inKeyword,
                  body, span := ← spanFrom (parallelKeyword.getD forKeyword) } : ForEach)) (do
        let index ← p
        let inKeyword ← keyword .in_
        let collection ← primary g' pipes
        let body ← block g' .forEachBlock
        return { item, index, collection, isParallel := parallelKeyword.isSome, forKeyword, inKeyword,
                 body, span := ← spanFrom (parallelKeyword.getD forKeyword) }) :=
    hp.seq fun _ ↦ (keyword_forward _).seq fun _ ↦ (primary_forward hg pipes).fewer.seq fun _ ↦
      (block_forward hg _).fewer.seq fun _ ↦ .close
  split
  · exact rest ((name_forward _).map.less (Nat.zero_le 1))
  · exact rest (.pure _)

/-- A `parallel` takes a token. -/
theorem parallel_forward : Forward (n + 1) 1 (parallel g pipes) (parallel g' pipes) := by
  refine (keyword_forward _).bind fun first ↦ .at? fun b ↦ ?_
  split
  · exact (forEach_forward hg pipes _).fewer.seq fun _ ↦ .pure _
  · exact modifiers?_forward.seq fun _ ↦ (Forward.lift _).seq fun _ ↦ (symbol_forward _).seq fun _ ↦
      (blockBody?_forward hg).fewer.seq fun _ ↦ .close

/-- A `repeat` takes a token. -/
theorem repeated_forward : Forward (n + 1) 1 (repeated g) (repeated g') :=
  (keyword_forward _).bind fun _ ↦ (count_forward _).seq fun _ ↦ asBinding?_forward.seq fun _ ↦
    (block_forward hg _).fewer.seq fun _ ↦ .close

/-- A `loop` takes a token. -/
theorem loop_forward : Forward (n + 1) 1 (loop g) (loop g') :=
  (keyword_forward _).bind fun _ ↦ loopCondition?_forward.seq fun _ ↦ asBinding?_forward.seq fun _ ↦
    modifiers?_forward.seq fun _ ↦ (Forward.lift _).seq fun _ ↦
      (block_forward hg _).fewer.seq fun _ ↦ .close

omit hg in
/-- A clause that may follow a block. -/
theorem clause?_forward {α : Type} (word : Keyword) {p p' : Span → Parser α}
    (hp : ∀ first, Forward n 0 (p first) (p' first)) :
    Forward n 0 (clause? word p) (clause? word p') := by
  refine .cursor fun c hc ↦ ?_
  split
  · exact (Forward.move fun c ↦ .skip c _).seq (fun _ ↦ take_forward.seq fun t ↦
      (hp t.span).map) c hc
  · exact Forward.pure _ c hc

/-- A `try` takes a token. -/
theorem attempt_forward : Forward (n + 1) 1 (attempt g) (attempt g') := by
  refine (keyword_forward _).bind fun first ↦ (block_forward hg _).fewer.seq fun body ↦ ?_
  refine (clause?_forward .catch_ fun first ↦
    asBinding?_forward.seq fun _ ↦ (block_forward hg _).fewer.seq fun _ ↦ .close).seq
      fun handler ↦ ?_
  refine (clause?_forward .finally_ fun first ↦
    (block_forward hg _).fewer.seq fun _ ↦ .close).seq fun cleanup ↦ ?_
  dsimp only
  split
  · exact (Forward.move fun c ↦ .report c _).seq fun _ ↦ .close
  · exact .close

/-- An option of a choice takes a token. -/
theorem choiceOption_forward : Forward (n + 1) 1 (choiceOption g) (choiceOption g') :=
  (keyword_forward _).bind fun _ ↦ (string_forward _).seq fun _ ↦
    (block_forward hg _).fewer.seq fun _ ↦ .close

/-- A round of reading options takes a token if there is another round. -/
theorem choiceRound_moves :
    Moves (n + 1) (fun r ↦ r.2.takes 0) (choiceRound g) (choiceRound g') := by
  have round {c : Cursor} (hc : c.Ahead (n + 1)) {p p' : Parser ChoiceOption}
      (hp : Forward (n + 1) 1 p p') (hend : c.current.kind ≠ .endOfFile)
      (hdedent : c.current.kind ≠ .dedent) :
      MovesAt c (fun r ↦ r.2.takes 0) (do return ((← recovering p).toList, RoundEnd.again))
        (do return ((← recovering p').toList, .again)) :=
    .bind hc (recovering_movesAt hc hp hend hdedent) fun _ ↦ .pure rfl
  refine .skip (fun c ↦ .skipBlanks c) (.cursor fun c hc ↦ ?_)
  split
  · exact ⟨rfl, .refl c, Nat.le_refl _⟩
  · exact ⟨rfl, .refl c, Nat.le_refl _⟩
  · next hk => exact round hc (choiceOption_forward hg) (by rw [hk]; nofun) (by rw [hk]; nofun)
  · next hdedent hend _ => exact round hc (.unexpected _) hend hdedent

/-- A `choice` takes a token. -/
theorem choice_forward : Forward (n + 1) 1 (choice g) (choice g') := by
  refine (keyword_forward _).bind fun first ↦ (discretion_forward _).seq fun criteria ↦ ?_
  refine (symbol_forward _).seq fun _ ↦ .cursor fun c hc ↦ ?_
  have rest {p : Parser Unit} {gathered gathered' : Parser (List ChoiceOption)}
      (hp : Forward n 0 p p) (h : Forward n 0 gathered gathered') :
      Forward n 0 (do
        p
        let _ ← take
        let _ ← take
        let options ← gathered
        let _ ← expect .dedent
        if options.isEmpty then
          throw ⟨.unexpected "at least one 'option'" "an empty choice block", first⟩
        return ({ criteria, options, span := ← spanFrom first } : Choice)) (do
        p
        let _ ← take
        let _ ← take
        let options ← gathered'
        let _ ← expect .dedent
        if options.isEmpty then
          throw ⟨.unexpected "at least one 'option'" "an empty choice block", first⟩
        return { criteria, options, span := ← spanFrom first }) := by
    refine hp.seq fun _ ↦ take_forward.seq fun _ ↦ take_forward.seq fun _ ↦ h.seq fun options ↦ ?_
    refine (expect_forward .dedent nofun).seq fun _ ↦ ?_
    dsimp only
    split
    · exact (Forward.throw (j := 0) _).seq fun _ ↦ .close
    · exact .close
  have gathered := Forward.gather (rounds_moves (Nat.zero_le 1)
    ((choiceRound_moves hg).mono (Nat.le_succ n)))
  dsimp only
  split
  · exact rest (.missingBlock _) gathered c hc
  · exact rest (p := pure ()) (.pure ()) gathered c hc

/-- A conditional branch takes a token. -/
theorem branch_forward (word : Keyword) : Forward (n + 1) 1 (branch g word) (branch g' word) :=
  (keyword_forward _).bind fun _ ↦ (discretion_forward _).seq fun _ ↦
    (block_forward hg _).fewer.seq fun _ ↦ .close

omit hg in
/-- A look past comments moves no cursor. -/
theorem comesNext_forward (kind : TokenKind) :
    Forward n 0 (do return (← cursor).comesNext kind) (do return (← cursor).comesNext kind) :=
  .cursor fun c hc ↦ Forward.pure _ c hc

/-- An `elif` branch takes a token, after the comments before it. -/
theorem elifBranch_forward :
    Forward (n + 1) 1 (do move Cursor.skipComments; branch g .elif)
      (do move Cursor.skipComments; branch g' .elif) :=
  (Forward.move fun c ↦ .skip c _).seq fun _ ↦ branch_forward hg .elif

/-- An `if` takes a token. -/
theorem conditional_forward : Forward (n + 1) 1 (conditional g) (conditional g') := by
  refine .cursor fun c hc ↦ (branch_forward hg .if_).bind (fun start ↦ ?_) c hc
  refine (manyWhile_forward (comesNext_forward _) (elifBranch_forward hg).fewer).seq fun more ↦ ?_
  refine (clause?_forward .else_ fun first ↦
    (block_forward hg _).fewer.seq fun _ ↦ .close).seq fun otherwise ↦ ?_
  exact .close

/-- A pipe as a statement takes a token. -/
theorem pipeStatement_forward :
    Forward (n + 1) 1 (pipeStatement g pipes) (pipeStatement g' pipes) := by
  refine .cursor fun c hc ↦ ?_
  refine (primary_forward hg pipes).bind (fun input ↦ (atPipe_forward pipes).seq fun b ↦ ?_) c hc
  split
  · exact (pipeTail_forward hg input _).fewer.bind fun _ ↦ .pure _
  · exact .throw _

private theorem oneStatement_forward :
    Forward (n + 1) 1 (oneStatement g pipes) (oneStatement g' pipes) := by
  refine .peek fun c hc ↦ ?_
  have pipe : ForwardAt c 1 (pipeStatement g pipes) (pipeStatement g' pipes) :=
    pipeStatement_forward hg pipes c hc
  split
  · next hk => exact .take_bind hc (by rw [hk]; nofun) fun _ ↦ .pure _
  · exact importSkill_forward.map c hc
  · exact (agent_forward hg pipes).bind (fun _ ↦ .pure _) c hc
  · exact (blockDefinition_forward hg).map c hc
  · exact (binding_forward hg pipes _).map c hc
  · exact (binding_forward hg pipes _).map c hc
  · exact (doAction_forward hg pipes).map c hc
  · exact parallel_forward hg pipes c hc
  · exact (repeated_forward hg).map c hc
  · exact (forEach_forward hg pipes _).map c hc
  · exact (loop_forward hg).map c hc
  · exact (attempt_forward hg).map c hc
  · exact throwStatement_forward.map c hc
  · exact (choice_forward hg).map c hc
  · exact (conditional_forward hg).map c hc
  · refine Forward.peekNext (fun next ↦ ?_) c hc
    split
    · exact (assignment_forward hg pipes).map
    · exact .cursor fun c hc ↦ Forward.throw _ c hc
    · exact pipeStatement_forward hg pipes
  · exact pipe
  · exact pipe
  · exact pipe
  · exact pipe
  · exact pipe
  · exact Forward.unexpected _ c hc

/-- A round of reading what follows a session takes a token unless it fails. -/
theorem sessionRound_moves :
    Moves (n + 1) (fun r ↦ r.2.takes 1) (sessionRound g pipes) (sessionRound g' pipes) := by
  refine .cursor fun c hc ↦ ?_
  dsimp only
  refine MovesAt.bind hc (session_forward hg pipes c hc) fun r ↦ ?_
  rcases r with e | s
  · exact .pure rfl
  -- the session itself is enough for the round, however it goes on
  refine Moves.bind (take?_forward (.symbol .arrow)) fun r ↦ ?_
  rcases r with e | _ | arrow
  · exact .pure rfl
  · refine .cursor fun d hd ↦ ?_
    split
    · refine MovesAt.bind hd (pipeTail_forward hg _ _ d ⟨hd.final, Nat.lt_succ_of_lt hd.length_lt⟩)
        fun r ↦ ?_
      rcases r with e | p
      · exact .pure rfl
      · exact .pure rfl
    · exact ⟨rfl, .refl d, Nat.le_refl _⟩
  · refine .cursor fun d hd ↦ ?_
    split
    · exact ⟨rfl, .refl d, Nat.le_refl _⟩
    · exact ⟨rfl, .refl d, Nat.le_refl _⟩

/-- A statement takes a token unless it fails. -/
theorem statement_moves :
    Moves (n + 1) (fun r ↦ ifNone 1 r.2) (statement g pipes) (statement g' pipes) := by
  intro c hc
  rw [MovesAt, statement, statement]
  split
  · exact rounds_moves (Nat.le_refl 1) (sessionRound_moves hg pipes) c hc
  · obtain ⟨same, passes, takes⟩ := oneStatement_forward hg pipes c hc
    rw [ExceptT.run, ExceptT.run] at same
    rw [← same]
    rcases run : oneStatement g pipes c with ⟨e | s, d⟩
    all_goals
      rw [ExceptT.run, run] at passes takes
      exact ⟨rfl, passes, takes⟩

end Nested

end Parser

namespace Nested

/-- The parsers of constructs that are nested one deeper. -/
def deeper (g : Nested) : Nested where
  value := Parser.value g
  statement := Parser.statement g
  properties := Parser.propertyBlock g

/-- The parsers of constructs that are nested less than `depth` deep, over those of what is
deeper. -/
def atop (g : Nested) : Nat → Nested
  | 0 => g
  | depth + 1 => (g.atop depth).deeper

/-- However deep nesting may go, the parsers are built over those that nest nothing. -/
theorem upTo_eq_atop (depth : Nat) : upTo depth = (upTo 0).atop depth := by
  induction depth with
  | zero => rfl
  | succ depth ih => exact congrArg Nested.deeper ih

/-- One level of nesting more is good for one token more. -/
theorem Forward.deeper (hg : g.Forward n g') : g.deeper.Forward (n + 1) g'.deeper where
  value := Parser.value_forward hg
  statement := Parser.statement_moves hg
  properties := Parser.propertyBlock_forward hg

/-- Parsers that nest `n` constructs come to what is nested in the innermost only where `n` tokens
are ahead. -/
theorem atop_forward (g g' : Nested) {depth depth' : Nat} (h : n ≤ depth) (h' : n ≤ depth') :
    (g.atop depth).Forward n (g'.atop depth') := by
  induction n generalizing depth depth' with
  | zero =>
    constructor <;> exact fun _ c hc ↦ absurd hc.length_lt (Nat.not_lt_zero _)
  | succ n ih =>
    obtain ⟨depth, rfl⟩ := Nat.exists_eq_add_of_lt h
    obtain ⟨depth', rfl⟩ := Nat.exists_eq_add_of_lt h'
    exact (ih (by omega) (by omega)).deeper

end Nested

end ProseLang
