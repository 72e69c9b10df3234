import ProseLang.Canonical.Names

/-!
# Canonical programs

In a canonical program nothing is left implicit. Sessions have the settings of their agents and a
context; results have names; parallel blocks have a strategy and a policy; pipe operations name
their items. `Program.canonical` brings a program into this form.

The context that a session is given is the result of the statement before it or, at the start of a
body, what the statement around the body is given. The branches of a parallel block are all given
what the block is given.
-/

namespace ProseLang

/-- What expansion knows about a program as a whole (`Canonicalizer`). -/
structure Expansion where
  /-- The agents defined at the top level; the first of a name counts. -/
  agents : List Agent
  /-- The names that must not be given to results. -/
  used : List String

/-- Expansion counts the names that it has given. -/
abbrev Expand := StateM Nat

namespace Expansion

/-- What is to be known about a program (`Canonicalizer::new`). -/
def ofProgram (p : Program) : Expansion where
  agents := p.statements.filterMap fun
    | .agent a => some a
    | _ => none
  used := p.boundNames

/-- A name that is not in use yet (`Canonicalizer::fresh_anon`). -/
def freshName (k : Expansion) : Expand Ident := do
  let n := freshIndex k.used (← get)
  set (n + 1)
  return .made (anonymousName n)

/-- The agent of a session, if it is defined. -/
def agentOf? (k : Expansion) (s : Session) : Option Agent :=
  s.agent.bind fun name ↦ k.agents.find? (·.name.val = name.val)

/-- A session with the settings of its agent, where it has none itself
(`Canonicalizer::session`). -/
def withAgent (k : Expansion) (s : Session) : Session :=
  match k.agentOf? s with
  | none => s
  | some a =>
    { s with model := s.model <|> a.model
             skills := s.skills <|> if a.skills.isEmpty then none else some a.skills
             prompt := s.prompt <|> a.prompt }

/-- A session with everything written out, given the context of its place
(`Canonicalizer::session`). -/
def session (k : Expansion) (context : Context) (s : Session) : Session :=
  let s := k.withAgent s
  { s with arrow := none
           context := if s.context.isImplicit then context else s.context
           backoff := s.backoff <|> if s.retry.isSome then some (.made "none") else none }

end Expansion

/-- The header of a parallel block with everything written out (`parallel_defaults`). A block that
waits for all branches whatever happens ignores failures, and any other one fails with the first. -/
def ParallelOf.withDefaults (p : Parallel) : Parallel :=
  let join := p.join.getD (.made JoinStrategy.all.text)
  let strategy := JoinStrategy.ofText? join.val
  let policy : FailurePolicy := if strategy = some .regardless then .ignore else .failFast
  { p with join := some join
           onFail := p.onFail <|> some (.made policy.text)
           count := p.count <|> if strategy = some .any then some (.made 1) else none }

/-- What the statement after a canonical statement is given as context (`context_after`). -/
def Statement.resultContext : Statement → Context
  | .parallel p =>
    if p.branchNames.isEmpty then .empty
    else .object (p.branchNames.map fun name ↦ .made name.val)
  | s =>
    match s.boundName? with
    | some name => .single (.made name.val)
    | none => .empty

/-- The `n`th branch of a parallel block as the assignment of a name that none was given
(`into_branch`). -/
def Statement.asBranch (n : Nat) (s : Statement) : Statement :=
  match s with
  | .action (.session t) =>
    if t.name.isSome then s else .assignment ⟨.made (branchName n), .action (.session t), t.span⟩
  | .action a => .assignment ⟨.made (branchName n), .action a, a.span⟩
  | _ => s

/-- A session statement with a name. -/
def Statement.withName (k : Expansion) (s : Statement) : Expand Statement :=
  match s with
  | .action (.session t) =>
    match t.name with
    | some _ => return s
    | none => return .action (.session { t with name := some (← k.freshName) })
  | _ => return s

namespace OperationOf

/-- The name of the item, written out. -/
def itemIdent (o : Operation) : Ident := o.item.getD (.made defaultItem)

/-- The name of the accumulator, written out where there is one. -/
def accumulatorIdent? (o : Operation) : Option Ident :=
  if o.operator.val = .reduce then some (o.accumulator.getD (.made defaultAccumulator))
  else o.accumulator

/-- The context of the body: the accumulator, if `reduce` has it, and the item. -/
def bodyContext (o : Operation) : Context :=
  if o.operator.val = .reduce then
    .list [.made (o.accumulator.getD (.made defaultAccumulator)).val, .made o.itemIdent.val]
  else .single (.made o.itemIdent.val)

end OperationOf

mutual

/-- A statement with everything within it written out (`Canonicalizer::statement`). -/
def Statement.canonical (k : Expansion) (context : Context) : Statement → Expand Statement
  | .comment c => return .comment c
  | .importSkill i => return .importSkill i
  | .agent a => return .agent a
  | .block ⟨name, params, body, span⟩ =>
    return .block ⟨name, params, ← canonicalBody k .empty body, span⟩
  | .binding kind ⟨name, value, span⟩ =>
    return .binding kind ⟨name, ← value.canonical k context, span⟩
  | .assignment ⟨name, value, span⟩ =>
    return .assignment ⟨name, ← value.canonical k context, span⟩
  | .action a => return .action (← a.canonical k context)
  | .parallel ⟨join, onFail, count, keys, body, span⟩ => do
    let header := ParallelOf.withDefaults ⟨join, onFail, count, keys, [], span⟩
    return .parallel { header with body := ← canonicalBranches k context 0 body }
  | .repeated ⟨count, index, body, span⟩ =>
    return .repeated ⟨count, index, ← canonicalBody k context body, span⟩
  | .forEach ⟨item, index, collection, isParallel, forKeyword, inKeyword, body, span⟩ => do
    let collection ← collection.canonical k context
    let body ← canonicalBody k context body
    return .forEach ⟨item, index, collection, isParallel, forKeyword, inKeyword, body, span⟩
  | .loop ⟨condition, maxIterations, index, keys, body, span⟩ =>
    return .loop ⟨condition, maxIterations, index, keys, ← canonicalBody k context body, span⟩
  | .attempt ⟨body, handler, cleanup, span⟩ => do
    let body ← canonicalBody k context body
    let handler ← canonicalHandler k context handler
    let cleanup ← canonicalClause k context cleanup
    return .attempt ⟨body, handler, cleanup, span⟩
  | .throw t => return .throw t
  | .choice ⟨criteria, options, span⟩ =>
    return .choice ⟨criteria, ← canonicalOptions k context options, span⟩
  | .conditional ⟨branches, otherwise, span⟩ => do
    let branches ← canonicalConditions k context branches
    let otherwise ← canonicalClause k context otherwise
    return .conditional ⟨branches, otherwise, span⟩

/-- Statements in order, each given the result of the one before (`Canonicalizer::body`). -/
def canonicalBody (k : Expansion) (context : Context) : List Statement → Expand (List Statement)
  | [] => return []
  | s :: body => do
    let t ← (← s.canonical k context).withName k
    return t :: (← canonicalBody k (if t.isExecutable then t.resultContext else context) body)

/-- The branches of a parallel block from the `n`th on (`Canonicalizer::body`). -/
def canonicalBranches (k : Expansion) (context : Context) (n : Nat) :
    List Statement → Expand (List Statement)
  | [] => return []
  | s :: body => do
    let t ← s.canonical k context
    if t.isExecutable then
      return t.asBranch n :: (← canonicalBranches k context (n + 1) body)
    else return t :: (← canonicalBranches k context n body)

/-- A handler with everything within it written out. -/
def canonicalHandler (k : Expansion) (context : Context) :
    Option Handler → Expand (Option Handler)
  | none => return none
  | some ⟨error, body, span⟩ => return some ⟨error, ← canonicalBody k context body, span⟩

/-- A clause that has a body only, with everything within it written out. -/
def canonicalClause (k : Expansion) (context : Context) : Option Body → Expand (Option Body)
  | none => return none
  | some ⟨body, span⟩ => return some ⟨← canonicalBody k context body, span⟩

/-- The options of a choice with everything within them written out. -/
def canonicalOptions (k : Expansion) (context : Context) :
    List ChoiceOption → Expand (List ChoiceOption)
  | [] => return []
  | ⟨label, body, span⟩ :: options => do
    let body ← canonicalBody k context body
    return ⟨label, body, span⟩ :: (← canonicalOptions k context options)

/-- Conditional branches with everything within them written out. -/
def canonicalConditions (k : Expansion) (context : Context) : List Branch → Expand (List Branch)
  | [] => return []
  | ⟨keyword, condition, body, span⟩ :: branches => do
    let body ← canonicalBody k context body
    return ⟨keyword, condition, body, span⟩ :: (← canonicalConditions k context branches)

/-- An action with everything within it written out. -/
def Action.canonical (k : Expansion) (context : Context) : Action → Expand Action
  | .session s => return .session (k.session context s)
  | .pipe ⟨input, operations, span⟩ => do
    let input ← input.canonical k context
    return .pipe ⟨input, ← canonicalOperations k operations, span⟩
  | .doBlock ⟨body, span⟩ => return .doBlock ⟨← canonicalBody k context body, span⟩
  | .invoke ⟨name, args, span⟩ => return .invoke ⟨name, ← canonicalValues k context args, span⟩

/-- Pipe operations with everything within them written out (`Canonicalizer::pipe`). -/
def canonicalOperations (k : Expansion) : List Operation → Expand (List Operation)
  | [] => return []
  | ⟨operator, item, accumulator, body, span⟩ :: operations => do
    let header : Operation := ⟨operator, item, accumulator, [], span⟩
    let body ← canonicalBody k header.bodyContext body
    return ⟨operator, some header.itemIdent, header.accumulatorIdent?, body, span⟩
      :: (← canonicalOperations k operations)

/-- A value with everything within it written out (`Canonicalizer::expr`). -/
def Expr.canonical (k : Expansion) (context : Context) : Expr → Expand Expr
  | .action a => return .action (← a.canonical k context)
  | .string s => return .string s
  | .number n => return .number n
  | .ident name => return .ident name
  | .array ⟨items, span⟩ => return .array ⟨← canonicalValues k context items, span⟩
  | .object ⟨entries, span⟩ => return .object ⟨← canonicalEntries k context entries, span⟩
  | .discretion d => return .discretion d

/-- Values with everything within them written out. -/
def canonicalValues (k : Expansion) (context : Context) : List Expr → Expand (List Expr)
  | [] => return []
  | e :: es => return (← e.canonical k context) :: (← canonicalValues k context es)

/-- The entries of an object with everything within them written out. -/
def canonicalEntries (k : Expansion) (context : Context) : List Entry → Expand (List Entry)
  | [] => return []
  | ⟨key, some value⟩ :: es => do
    let value ← value.canonical k context
    return ⟨key, some value⟩ :: (← canonicalEntries k context es)
  | ⟨key, none⟩ :: es => return ⟨key, none⟩ :: (← canonicalEntries k context es)

end

/-- A program with everything written out (`Canonicalizer::run`). -/
def Program.canonical (p : Program) : Program :=
  { p with statements := ((canonicalBody (.ofProgram p) .empty p.statements).run 0).1 }

end ProseLang
