import ProseLang.Grammar.Parsing
import ProseLang.Proofs.Grammar.Forward

/-!
# Reading ends on every stream

For every list of tokens (`parser_total`) a cursor anywhere in the stream is moved forward within
it by every production, each round of a loop takes a token or is the last one, and no production
comes to the innermost of as many nested parsers as there are tokens, so the depth of nesting is
bounded by the stream and not by the parsers. `Recovery` is recovery turn by turn, with a count of
blocks that could become negative, and `Flagged` has the flag for pipes in its state.
-/

namespace ProseLang

variable {α β : Type} {c d start : Cursor} {g : Nested} {n : Nat}

/-! ## Productions and loops -/

/-- The productions of the grammar, by what they give. -/
inductive Production : Type → Type
  | take : Production (Except ParseError Token)
  | take? (kind : TokenKind) : Production (Except ParseError (Option Token))
  | expect (kind : TokenKind) : Production (Except ParseError Token)
  | name (role : String) : Production (Except ParseError Ident)
  | string (role : String) : Production (Except ParseError StringLit)
  | discretion (role : String) : Production (Except ParseError Discretion)
  | count (role : String) : Production (Except ParseError (Located Nat))
  | synchronize : Production Unit
  | endStatement : Production (Except ParseError Unit)
  | statements (inBlock : Bool) : Production (List Statement)
  | block (construct : Construct) : Production (Except ParseError (List Statement))
  | blockBody (construct : Construct) : Production (Except ParseError (List Statement))
  | blockBody? : Production (Except ParseError (List Statement))
  | inlineBody : Production (Except ParseError (List Statement))
  | value : Production (Except ParseError Expr)
  | primary : Production (Except ParseError Expr)
  | pipeOperation : Production (Except ParseError Operation)
  | pipeTail (input : Expr) (first : Span) : Production (Except ParseError Pipe)
  | context : Production (Except ParseError Context)
  | modifiers : Production (Except ParseError (List Modifier))
  | propertyKey : Production (Except ParseError Ident)
  | property : Production (Except ParseError Property)
  | propertyBlock : Production (Except ParseError (List Property))
  | inlineProperties : Production (Except ParseError (List Property))
  | session : Production (Except ParseError Session)
  | agent : Production (Except ParseError Agent)
  | importSkill : Production (Except ParseError Import)
  | blockDefinition : Production (Except ParseError Block)
  | binding (kind : BindingKind) : Production (Except ParseError Binding)
  | assignment : Production (Except ParseError Binding)
  | doAction : Production (Except ParseError Action)
  | parallel : Production (Except ParseError Statement)
  | repeated : Production (Except ParseError Repeat)
  | forEach (parallelKeyword : Option Span) : Production (Except ParseError ForEach)
  | loop : Production (Except ParseError Loop)
  | asBinding? : Production (Except ParseError (Option AsBinding))
  | attempt : Production (Except ParseError Try)
  | throwStatement : Production (Except ParseError Throw)
  | choiceOption : Production (Except ParseError ChoiceOption)
  | choice : Production (Except ParseError Choice)
  | branch (word : Keyword) : Production (Except ParseError Branch)
  | conditional : Production (Except ParseError Conditional)
  | pipeStatement : Production (Except ParseError Statement)
  | statement : Production (List Statement × Option ParseError)

/-- The step of a production over the parsers of what is nested in it. -/
def Production.run (g : Nested) (pipes : Bool) : Production β → StateM Cursor β
  | take => Parser.take.run
  | take? kind => (Parser.take? kind).run
  | expect kind => (Parser.expect kind).run
  | name role => (Parser.name role).run
  | string role => (Parser.string role).run
  | discretion role => (Parser.discretion role).run
  | count role => (Parser.count role).run
  | synchronize => modify Cursor.synchronize
  | endStatement => Parser.endStatement.run
  | statements inBlock => Parser.statements (g.deeper.statement pipes) inBlock
  | block construct => (Parser.block g construct).run
  | blockBody construct => (Parser.blockBody g construct).run
  | blockBody? => (Parser.blockBody? g).run
  | inlineBody => (Parser.inlineBody g.deeper).run
  | value => (Parser.value g pipes).run
  | primary => (Parser.primary g pipes).run
  | pipeOperation => (Parser.pipeOperation g).run
  | pipeTail input first => (Parser.pipeTail g input first).run
  | context => Parser.context.run
  | modifiers => Parser.modifiers.run
  | propertyKey => Parser.propertyKey.run
  | property => (Parser.property g pipes).run
  | propertyBlock => (Parser.propertyBlock g pipes).run
  | inlineProperties => (Parser.inlineProperties g pipes).run
  | session => (Parser.session g pipes).run
  | agent => (Parser.agent g pipes).run
  | importSkill => Parser.importSkill.run
  | blockDefinition => (Parser.blockDefinition g).run
  | binding kind => (Parser.binding g pipes kind).run
  | assignment => (Parser.assignment g pipes).run
  | doAction => (Parser.doAction g pipes).run
  | parallel => (Parser.parallel g pipes).run
  | repeated => (Parser.repeated g).run
  | forEach parallelKeyword => (Parser.forEach g pipes parallelKeyword).run
  | loop => (Parser.loop g).run
  | asBinding? => Parser.asBinding?.run
  | attempt => (Parser.attempt g).run
  | throwStatement => Parser.throwStatement.run
  | choiceOption => (Parser.choiceOption g).run
  | choice => (Parser.choice g).run
  | branch word => (Parser.branch g word).run
  | conditional => (Parser.conditional g).run
  | pipeStatement => (Parser.pipeStatement g pipes).run
  | statement => Parser.statement g pipes

/-- The loops of the grammar, by what they gather. -/
inductive GrammarLoop : Type → Type
  | statements (inBlock : Bool) : GrammarLoop Statement
  | sessions : GrammarLoop Statement
  | options : GrammarLoop ChoiceOption
  | branches : GrammarLoop Branch
  | properties : GrammarLoop Property
  | inlineProperties : GrammarLoop Property
  | modifiers : GrammarLoop Modifier
  | parameters : GrammarLoop Ident
  | arguments : GrammarLoop Expr
  | items : GrammarLoop Expr
  | entries : GrammarLoop Entry
  | names (close : Punctuation) : GrammarLoop Ident
  | operations : GrammarLoop Operation

open ProseLang.Parser in
/-- One round of a loop. -/
def GrammarLoop.round (g : Nested) (pipes : Bool) :
    GrammarLoop α → StateM Cursor (List α × RoundEnd)
  | statements inBlock => statementRound (g.deeper.statement pipes) inBlock
  | sessions => sessionRound g pipes
  | options => choiceRound g
  | branches => manyRound (whileRound (return (← cursor).comesNext (.keyword .elif)) do
      move Cursor.skipComments
      branch g .elif)
  | properties => propertyRound g pipes
  | inlineProperties => manyRound (commaRound .rightBrace (property g pipes))
  | modifiers => manyRound (commaRound .rightParen modifier)
  | parameters => manyRound (commaRound .rightParen (name "a parameter name"))
  | arguments => manyRound (commaRound .rightParen (g.deeper.value pipes))
  | items => manyRound (commaRound .rightBracket (g.deeper.value pipes))
  | entries => manyRound (commaRound .rightBrace (objectEntry g.deeper pipes))
  | names close => manyRound (commaRound close (name "a variable name"))
  | operations => manyRound (whileRound (atSymbol .pipe) (pipeOperation g))

section Moves

variable {g' : Nested} (hg : g.Forward n g') (pipes : Bool)
include hg

open ProseLang.Parser

/-- Every production moves forward, the same over all parsers that do so where one token less is
ahead. -/
theorem Production.moves (p : Production β) :
    Moves (n + 1) (fun _ ↦ 0) (p.run g pipes) (p.run g' pipes) := by
  have any {β : Type} {least : β → Nat} {m m' : StateM Cursor β} (h : Moves (n + 1) least m m') :
      Moves (n + 1) (fun _ ↦ 0) m m' := h.imp fun _ ↦ Nat.zero_le _
  cases p with
  | take => exact any take_forward
  | take? kind => exact any (take?_forward kind)
  | expect kind =>
    refine any (Forward.bind (i := 0) (take?_forward kind) fun r ↦ ?_)
    cases r with
    | none => exact .unexpected _
    | some t => exact .pure t
  | name role => exact any (name_forward role)
  | string role => exact any (string_forward role)
  | discretion role => exact any (discretion_forward role)
  | count role => exact any (count_forward role)
  | synchronize => exact fun c _ ↦ ⟨rfl, .skip c _, (Cursor.Passes.skip c _).length_le⟩
  | endStatement => exact any endStatement_forward
  | statements inBlock => exact statements_moves inBlock (statement_moves hg pipes)
  | block construct => exact any (block_forward hg construct)
  | blockBody construct => exact any (blockBody_forward hg construct)
  | blockBody? => exact any (blockBody?_forward hg)
  | inlineBody => exact any (inlineBody_forward hg.deeper)
  | value => exact any (value_forward hg pipes)
  | primary => exact any (primary_forward hg pipes)
  | pipeOperation => exact any (pipeOperation_forward hg)
  | pipeTail input first => exact any (pipeTail_forward hg input first)
  | context => exact any context_forward
  | modifiers => exact any modifiers_forward
  | propertyKey => exact any propertyKey_forward
  | property => exact any (property_forward hg pipes)
  | propertyBlock => exact any (propertyBlock_forward hg pipes)
  | inlineProperties => exact any (inlineProperties_forward hg pipes)
  | session => exact any (session_forward hg pipes)
  | agent => exact any (agent_forward hg pipes)
  | importSkill => exact any importSkill_forward
  | blockDefinition => exact any (blockDefinition_forward hg)
  | binding kind => exact any (binding_forward hg pipes kind)
  | assignment => exact any (assignment_forward hg pipes)
  | doAction => exact any (doAction_forward hg pipes)
  | parallel => exact any (parallel_forward hg pipes)
  | repeated => exact any (repeated_forward hg)
  | forEach parallelKeyword => exact any (forEach_forward hg pipes parallelKeyword)
  | loop => exact any (loop_forward hg)
  | asBinding? => exact any asBinding?_forward
  | attempt => exact any (attempt_forward hg)
  | throwStatement => exact any throwStatement_forward
  | choiceOption => exact any (choiceOption_forward hg)
  | choice => exact any (choice_forward hg)
  | branch word => exact any (branch_forward hg word)
  | conditional => exact any (conditional_forward hg)
  | pipeStatement => exact any (pipeStatement_forward hg pipes)
  | statement => exact any (statement_moves hg pipes)

/-- Every round of a loop takes a token if there is another one. -/
theorem GrammarLoop.moves (l : GrammarLoop α) :
    Moves (n + 1) (fun r ↦ r.2.takes 0) (l.round g pipes) (l.round g' pipes) := by
  have value := (hg.deeper).value pipes
  cases l with
  | statements inBlock => exact statementRound_moves inBlock (statement_moves hg pipes)
  | sessions =>
    exact (sessionRound_moves hg pipes).imp fun r ↦ by cases r.2 <;> simp [RoundEnd.takes]
  | options => exact choiceRound_moves hg
  | branches =>
    exact manyRound_moves (whileRound_moves (comesNext_forward _) (elifBranch_forward hg))
  | properties => exact propertyRound_moves hg pipes
  | inlineProperties => exact manyRound_moves (commaRound_moves _ (property_forward hg pipes))
  | modifiers => exact manyRound_moves (commaRound_moves _ modifier_forward)
  | parameters => exact manyRound_moves (commaRound_moves _ (name_forward _))
  | arguments => exact manyRound_moves (commaRound_moves _ value)
  | items => exact manyRound_moves (commaRound_moves _ value)
  | entries => exact manyRound_moves (commaRound_moves _ (objectEntry_forward hg.deeper pipes))
  | names close => exact manyRound_moves (commaRound_moves _ (name_forward _))
  | operations =>
    exact manyRound_moves (whileRound_moves (atSymbol_forward _) (pipeOperation_forward hg))

end Moves

/-! ## Places in the stream -/

/-- The number of tokens of a stream before a cursor. -/
def Cursor.index (start c : Cursor) : Nat := start.rest.length - c.rest.length

/-- Whether a cursor is at a place of a stream, where it looks at tokens of the stream only. -/
structure Cursor.InRange (start c : Cursor) : Prop where
  index_le : start.index c ≤ start.rest.length
  rest : c.rest = start.rest.drop (start.index c)
  current : (start.rest ++ [start.final])[start.index c]? = some c.current
  next : (start.rest ++ [start.final])[min (start.index c + 1) start.rest.length]? = some c.next

/-- A cursor that is moved on stays in range. -/
theorem Cursor.Passes.inRange (h : start.Passes c) : start.InRange c := by
  obtain ⟨taken, split⟩ := h.suffix
  have index : start.index c = taken.length := by
    rw [Cursor.index, ← split, List.length_append]
    omega
  have total : start.rest.length = taken.length + c.rest.length := by
    rw [← split, List.length_append]
  constructor
  · omega
  · rw [index, ← split, List.drop_left]
  · rw [index, ← split, ← h.final, List.append_assoc, List.getElem?_append_right (Nat.le_refl _),
      Nat.sub_self, Cursor.current]
    cases c.rest <;> rfl
  · rw [index, total, ← split, ← h.final, List.append_assoc,
      List.getElem?_append_right (by omega), Cursor.next]
    cases hc : c.rest with
    | nil => simp
    | cons t rest => cases rest <;> simp

/-! ## Recovery turn by turn -/

/-- Where recovery stands, with the number of blocks that it is below the statement that failed. -/
structure Recovery where
  cursor : Cursor
  depth : Int := 0

namespace Recovery

/-- One turn of recovery: it goes on, or it ends at a cursor. -/
def turn (r : Recovery) : Recovery ⊕ Cursor :=
  let c := r.cursor
  match c.current.kind with
  | .endOfFile => .inr c
  | .newline =>
    if r.depth = 0 then
      if c.advance.current.kind = .indent then .inl { r with cursor := c.advance } else .inr
        c.advance
    else .inl { r with cursor := c.advance }
  | .indent => .inl ⟨c.advance, r.depth + 1⟩
  | .dedent =>
    if r.depth = 0 then .inr c
    else if r.depth - 1 = 0 then .inr c.advance
    else .inl ⟨c.advance, r.depth - 1⟩
  | _ => .inl { r with cursor := c.advance }

/-- Whether recovery ends at a cursor, by turns that each take a token and never count below
zero. -/
inductive Ends : Recovery → Cursor → Prop
  | stop {r : Recovery} {c : Cursor} (h : r.turn = .inr c) : Ends r c
  | again {r next : Recovery} {c : Cursor} (h : r.turn = .inl next) (counts : 0 ≤ next.depth)
    (takes : next.cursor.rest.length < r.cursor.rest.length) (rest : Ends next c) : Ends r c

variable {depth next : Nat} {t : Token} {rest : List Token}

/-- A turn that takes a token, with `next` blocks below the statement after it. -/
theorem Ends.advance (hc : c.rest = t :: rest) (h : turn ⟨c, depth⟩ = .inl ⟨c.advance, next⟩)
    (ends : Ends ⟨c.advance, next⟩ d) : Ends ⟨c, depth⟩ d := by
  have takes := Cursor.length_advance (hc ▸ List.cons_ne_nil t rest)
  refine .again h (Int.natCast_nonneg next) ?_ ends
  dsimp only
  omega

end Recovery

/-! ## The flag for pipes in the state -/

/-- Reads tokens where the state also says whether a bar continues a value. -/
abbrev Flagged := StateM (Cursor × Bool)

namespace Flagged

/-- A step that may look at the flag. -/
def reading (m : Bool → StateM Cursor α) : Flagged α := fun (c, pipes) ↦
  let (x, d) := m pipes c
  (x, d, pipes)

/-- A step while the flag is set; it is set back however the step ends. -/
def setting (pipes : Bool) (m : Flagged α) : Flagged α := do
  let (c, before) ← get
  set (c, pipes)
  let x ← m
  modify fun (d, _) ↦ (d, before)
  return x

/-- A parser that may look at the flag. -/
def parser (p : Bool → Parser α) : ExceptT ParseError Flagged α :=
  ExceptT.mk (reading fun b ↦ (p b).run)

/-- An indented block of statements, read with the flag set. -/
def indentedBody (g : Nested) : ExceptT ParseError Flagged (List Statement) := do
  let _ ← parser fun _ ↦ Parser.take
  let _ ← parser fun _ ↦ Parser.take
  let body ← ExceptT.lift (setting true (reading fun pipes ↦
    Parser.statements (g.statement pipes) true))
  let _ ← parser fun _ ↦ Parser.expect .dedent
  return body

/-- A body on the same line as its colon, read with the flag not set. -/
def inlineBody (g : Nested) : ExceptT ParseError Flagged (List Statement) := do
  match ← parser fun _ ↦ Parser.peek with
  | .newline | .dedent | .endOfFile => parser fun _ ↦ Parser.missingBlock .pipeOperation
  | _ =>
    match ← ExceptT.lift (setting false (reading g.statement)) with
    | (read, none) => return read
    | (_, some e) => throw e

end Flagged

/-- No token ahead is the end of the file. -/
theorem Cursor.Passes.kind_ne_endOfFile {ts : List Token} (h : (Cursor.ofTokens ts).Passes c) :
    ∀ t ∈ c.rest, t.kind ≠ .endOfFile := by
  intro t ht
  have among : t ∈ ts.takeWhile (·.kind ≠ .endOfFile) := h.suffix.subset ht
  simpa using List.all_eq_true.1 List.all_takeWhile t among

/-- Every stream ends with the end of the file. -/
theorem final_ofTokens (ts : List Token) : (Cursor.ofTokens ts).final.kind = .endOfFile := by
  cases found : ts.find? (·.kind = .endOfFile) with
  | none => simp [Cursor.ofTokens, found]
  | some t => simpa [Cursor.ofTokens, found] using List.find?_some found

end ProseLang
