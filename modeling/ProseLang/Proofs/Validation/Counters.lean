import ProseLang.Proofs.Validation.MovedAgents

/-!
# The place of a statement in counters

A check is told the place of a statement by the constructs around it. `Counting.walk` has the place
in its state instead, as two counts of open bodies and two flags (`Counters`): a construct changes
them before its body and changes them back behind it. Both make the same findings and leave the same
scopes, and the counts and the flag of parallel blocks are afterwards what they were before
(`Counting.visit_run`).
-/

namespace ProseLang

/-- What a check counts and remembers of the constructs around a statement. -/
structure Counters where
  /-- The number of bodies around the statement. -/
  depth : Nat := 0
  /-- The number of handlers around the statement. -/
  catchDepth : Nat := 0
  /-- Whether the statement is a branch of a parallel block. -/
  inParallel : Bool := false
  /-- Whether there was a statement after which imports must not follow. -/
  pastImports : Bool := false
deriving DecidableEq, Repr

namespace Counters

/-- The place that the counters tell. -/
def place (n : Counters) : Place where
  isBranch := n.inParallel
  inHandler := 0 < n.catchDepth
  nested := 0 < n.depth
  importsOpen := n.depth = 0 && !n.pastImports

/-- Whether all is as before, except that imports may have come to an end. -/
structure Kept (n m : Counters) : Prop where
  depth : m.depth = n.depth
  catchDepth : m.catchDepth = n.catchDepth
  inParallel : m.inParallel = n.inParallel
  pastImports : n.pastImports = true → m.pastImports = true

variable {n m l : Counters}

namespace Kept

private theorem refl (n : Counters) : n.Kept n := ⟨rfl, rfl, rfl, id⟩

private theorem trans (h : n.Kept m) (h' : m.Kept l) : n.Kept l :=
  ⟨h'.depth.trans h.depth, h'.catchDepth.trans h.catchDepth, h'.inParallel.trans h.inParallel,
    fun past ↦ h'.pastImports (h.pastImports past)⟩

/-- The place is the same but for imports. -/
theorem place (h : n.Kept m) : m.place = n.place ∨ m.place = n.place.shut := by
  obtain ⟨depth, catchDepth, inParallel, past⟩ := h
  simp only [Counters.place, Place.shut, depth, catchDepth, inParallel, Place.mk.injEq, true_and]
  cases hn : n.pastImports with
  | true => exact .inl (by rw [past hn])
  | false =>
    cases m.pastImports with
    | true => exact .inr (by simp)
    | false => exact .inl rfl

/-- Once imports have come to an end, the place is the same without them. -/
theorem place_of_past (h : n.Kept m) (past : m.pastImports = true) : m.place = n.place.shut := by
  simp [Counters.place, Place.shut, h.depth, h.catchDepth, h.inParallel, past]

end Kept

/-- The counters in a body with a scope of its own. -/
def inBody (n : Counters) : Counters := { n with depth := n.depth + 1, inParallel := false }

/-- The counters in a handler, outside its body. -/
def handling (n : Counters) : Counters := { n with catchDepth := n.catchDepth + 1 }

/-- The counters in the branches of a parallel block. -/
def branches (n : Counters) : Counters := { n with depth := n.depth + 1, inParallel := true }

private theorem place_inBody (n : Counters) : n.inBody.place = n.place.inBody := rfl

private theorem place_handling (n : Counters) :
    n.handling.place = { n.place with inHandler := true } := rfl

private theorem place_branches (n : Counters) : n.branches.place = n.place.branches := rfl

end Counters

/-- A check that has counters in its state. -/
abbrev Counting := StateM (CheckState × Counters)

namespace Counting

/-- A check that leaves the counters alone. -/
def check (c : Check Unit) : Counting Unit := fun (σ, n) ↦ ((), (c.run σ).2, n)

/-- The counters. -/
def counters : Counting Counters := return (← get).2

/-- A check at the place that the counters tell. -/
def checkHere (c : Place → Check Unit) : Counting Unit := do check (c (← counters).place)

/-- Changes the counters. -/
def count (f : Counters → Counters) : Counting Unit := modify fun (σ, n) ↦ (σ, f n)

/-- Checks something in a scope of its own that starts with the given names. -/
def inScope (k : Knowledge) (ls : List Check.Local) (body : Counting Unit) : Counting Unit := do
  check Check.openScope
  let before := (← counters).inParallel
  count fun n ↦ { n with inParallel := false }
  check (Check.declareLocals ls)
  count fun n ↦ { n with depth := n.depth + 1 }
  body
  count fun n ↦ { n with depth := n.depth - 1, inParallel := before }
  check (Check.closeScope k)

/-- Checks something as a handler. -/
def handling (body : Counting Unit) : Counting Unit := do
  count fun n ↦ { n with catchDepth := n.catchDepth + 1 }
  body
  count fun n ↦ { n with catchDepth := n.catchDepth - 1 }

/-- Checks something as the branches of a parallel block, whose results land in the scope around
it. -/
def branches (body : Counting Unit) : Counting Unit := do
  let before := (← counters).inParallel
  count fun n ↦ { n with depth := n.depth + 1, inParallel := true }
  body
  count fun n ↦ { n with depth := n.depth - 1, inParallel := before }

/-- Notes that imports come to an end. -/
def passing : Statement → Counting Unit
  | .importSkill _ | .comment _ => pure ()
  | _ => count fun n ↦ { n with pastImports := true }

open Check in
mutual

/-- Checks a statement, of which it is noted already whether imports may follow. -/
def walk (k : Knowledge) : Statement → Counting Unit
  | .comment _ => pure ()
  | .importSkill i => checkHere fun p ↦ importSkill k p i
  | .agent a => check (agent k a)
  | .block ⟨_, params, body, _⟩ =>
    inScope k (params.map fun name ↦ { name, kind := .parameter }) (walks k [] body)
  | .binding kind ⟨name, value, _⟩ => do
    expr k value
    check (declare name (bindingSymbol kind) true)
  | .assignment ⟨name, value, span⟩ => do
    expr k value
    checkHere fun p ↦ assignment p name span
  | .action a => do
    action k a
    check (match a with
      | .session s => s.name.forM fun name ↦ declare name .session true
      | _ => pure ())
  | .parallel ⟨join, onFail, count, keys, body, span⟩ => do
    check (parallel ⟨join, onFail, count, keys, body, span⟩)
    branches (walks k [] body)
  | .repeated ⟨count, index, body, _⟩ => do
    check (noteIf (count.val = 0) .zeroRepeat count.span)
    inScope k (index.map fun b ↦ .ofIdent b.name).toList (walks k [] body)
  | .forEach ⟨item, index, collection, _, _, _, body, _⟩ => do
    expr k collection
    inScope k (.ofIdent item :: (index.map Local.ofIdent).toList) (walks k [] body)
  | .loop ⟨condition, maxIterations, index, _, body, span⟩ => do
    check (noteIf (condition.isNone && maxIterations.isNone) .unboundedLoop span)
    inScope k (index.map fun b ↦ .ofIdent b.name).toList (walks k [] body)
  | .attempt ⟨body, handler, cleanup, _⟩ => do
    inScope k [] (walks k [] body)
    handlerBody k handler
    clauseBody k cleanup
  | .throw t =>
    match t.message with
    | some message => check (string message)
    | none => checkHere fun p ↦ noteIf (!p.inHandler) .throwOutsideCatch t.span
  | .choice ⟨_, options, _⟩ => optionBodies k options
  | .conditional ⟨branches, otherwise, _⟩ => do
    branchBodies k branches
    clauseBody k otherwise

/-- Checks statements in order; `before` are the names of the result of the statement before. -/
def walks (k : Knowledge) (before : List String) : List Statement → Counting Unit
  | [] => checkHere fun p ↦ if p.nested then before.forM markUsed else pure ()
  | s :: rest => do
    check (if s.isExecutable && seesPredecessor s then before.forM markUsed else pure ())
    passing s
    walk k s
    walks k (if s.isExecutable then resultNames s else before) rest

/-- Checks a handler. -/
def handlerBody (k : Knowledge) : Option Handler → Counting Unit
  | none => pure ()
  | some ⟨error, body, _⟩ =>
    handling (inScope k (error.map fun b ↦ .ofIdent b.name).toList (walks k [] body))

/-- Checks a clause that has a body only. -/
def clauseBody (k : Knowledge) : Option Body → Counting Unit
  | none => pure ()
  | some ⟨body, _⟩ => inScope k [] (walks k [] body)

/-- Checks the options of a choice. -/
def optionBodies (k : Knowledge) : List ChoiceOption → Counting Unit
  | [] => pure ()
  | ⟨label, body, _⟩ :: options => do
    check (string label)
    inScope k [] (walks k [] body)
    optionBodies k options

/-- Checks conditional branches. -/
def branchBodies (k : Knowledge) : List Branch → Counting Unit
  | [] => pure ()
  | ⟨_, _, body, _⟩ :: branches => do
    inScope k [] (walks k [] body)
    branchBodies k branches

/-- Checks an action. -/
def action (k : Knowledge) : Action → Counting Unit
  | .session s => check (session k s)
  | .pipe ⟨input, operations, _⟩ => do
    expr k input
    operationBodies k operations
  | .doBlock ⟨body, _⟩ => inScope k [] (walks k [] body)
  | .invoke ⟨name, args, span⟩ => do
    exprs k args
    check (invocation k ⟨name, args, span⟩)

/-- Checks pipe operations. -/
def operationBodies (k : Knowledge) : List Operation → Counting Unit
  | [] => pure ()
  | ⟨operator, item, accumulator, body, span⟩ :: operations => do
    inScope k (operationLocals ⟨operator, item, accumulator, body, span⟩) (walks k [] body)
    operationBodies k operations

/-- Checks a value. -/
def expr (k : Knowledge) : Expr → Counting Unit
  | .action a => action k a
  | .string s => check (string s)
  | .number _ | .discretion _ => pure ()
  | .ident name => check (useName .value name)
  | .array ⟨items, _⟩ => exprs k items
  | .object ⟨es, _⟩ => entries k es

/-- Checks values in order. -/
def exprs (k : Knowledge) : List Expr → Counting Unit
  | [] => pure ()
  | e :: es => do
    expr k e
    exprs k es

/-- Checks the entries of an object in order. -/
def entries (k : Knowledge) : List Entry → Counting Unit
  | [] => pure ()
  | ⟨_, some value⟩ :: es => do
    expr k value
    entries k es
  | ⟨key, none⟩ :: es => do
    check (useName .value key)
    entries k es

end

/-- Checks a statement. -/
def visit (k : Knowledge) (s : Statement) : Counting Unit := do
  passing s
  walk k s

/-! ## Counting tells the place -/

/-- Whether counters tell a check its place: with them it makes the same findings and leaves the
same scopes, and they end where they began. -/
def Tells (m : Counting Unit) (c : Place → Check Unit) : Prop :=
  ∀ σ n, ∃ n', n.Kept n' ∧ m.run (σ, n) = ((), ((c n.place).run σ).2, n')

namespace Tells

variable {m m' : Counting Unit} {c c' : Place → Check Unit}

private theorem pure : Tells (pure ()) fun _ ↦ pure () := fun _ n ↦ ⟨n, .refl n, rfl⟩

private theorem check (c : Check Unit) : Tells (check c) fun _ ↦ c := fun _ n ↦ ⟨n, .refl n, rfl⟩

private theorem checkHere (c : Place → Check Unit) : Tells (checkHere c) c :=
  fun _ n ↦ ⟨n, .refl n, rfl⟩

/-- What follows must not depend on imports, which the first check may bring to an end. -/
theorem seq (h : Tells m c) (h' : Tells m' c') (shut : ∀ p : Place, c' p.shut = c' p) :
    Tells (do m; m') (fun p ↦ do c p; c' p) := by
  intro σ n
  obtain ⟨n₁, kept, ran⟩ := h σ n
  obtain ⟨n₂, kept', ran'⟩ := h' ((c n.place).run σ).2 n₁
  have same : c' n₁.place = c' n.place := by
    rcases kept.place with placed | placed
    · rw [placed]
    · rw [placed, shut]
  refine ⟨n₂, kept.trans kept', ?_⟩
  calc (do m; m' : Counting Unit).run (σ, n)
      = m'.run (m.run (σ, n)).2 := rfl
    _ = ((), ((c' n.place).run ((c n.place).run σ).2).2, n₂) := by rw [ran, ran', same]

private theorem inScope (k : Knowledge) (ls : List Check.Local) (h : Tells m c) :
    Tells (inScope k ls m) fun p ↦ Check.inScope k ls (c p.inBody) := by
  intro σ n
  obtain ⟨l, kept, ran⟩ := h ((Check.declareLocals ls).run (Check.openScope.run σ).2).2 n.inBody
  rw [n.place_inBody] at ran
  refine ⟨{ l with depth := l.depth - 1, inParallel := n.inParallel },
    ⟨?_, kept.catchDepth, rfl, kept.pastImports⟩, ?_⟩
  · exact (congrArg (· - 1) kept.depth).trans (Nat.add_sub_cancel n.depth 1)
  · change (do
      count fun l ↦ { l with depth := l.depth - 1, inParallel := n.inParallel }
      Counting.check (Check.closeScope k) : Counting Unit).run (m.run (_, n.inBody)).2 = _
    rw [ran]
    rfl

private theorem handling (h : Tells m c) :
    Tells (handling m) fun p ↦ c { p with inHandler := true } := by
  intro σ n
  obtain ⟨l, kept, ran⟩ := h σ n.handling
  rw [n.place_handling] at ran
  refine ⟨{ l with catchDepth := l.catchDepth - 1 },
    ⟨kept.depth, ?_, kept.inParallel, kept.pastImports⟩, ?_⟩
  · exact (congrArg (· - 1) kept.catchDepth).trans (Nat.add_sub_cancel n.catchDepth 1)
  · change (count fun l ↦ { l with catchDepth := l.catchDepth - 1 }).run
      (m.run (σ, n.handling)).2 = _
    rw [ran]
    rfl

private theorem branches (h : Tells m c) : Tells (branches m) fun p ↦ c p.branches := by
  intro σ n
  obtain ⟨l, kept, ran⟩ := h σ n.branches
  rw [n.place_branches] at ran
  refine ⟨{ l with depth := l.depth - 1, inParallel := n.inParallel },
    ⟨?_, kept.catchDepth, rfl, kept.pastImports⟩, ?_⟩
  · exact (congrArg (· - 1) kept.depth).trans (Nat.add_sub_cancel n.depth 1)
  · change (count fun l ↦ { l with depth := l.depth - 1, inParallel := n.inParallel }).run
      (m.run (σ, n.branches)).2 = _
    rw [ran]
    rfl

end Tells

variable (k : Knowledge)

private theorem handlerBody_shut (p : Place) (handler : Option Handler) :
    Check.handlerBody k p.shut handler = Check.handlerBody k p handler := by
  cases handler <;> rfl

private theorem clauseBody_shut (p : Place) (clause : Option Body) :
    Check.clauseBody k p.shut clause = Check.clauseBody k p clause := by
  cases clause <;> rfl

/-- Behind a statement the place is the one that statements behind it have. -/
theorem Tells.visit {s : Statement} (h : Tells (walk k s) fun p ↦ Check.statement k p s)
    (σ : CheckState) (n : Counters) :
    ∃ n', n.Kept n' ∧ n'.place = n.place.past s
      ∧ (visit k s).run (σ, n) = ((), ((Check.statement k n.place s).run σ).2, n') := by
  let m : Counters := { n with pastImports := true }
  have ended : n.Kept m := ⟨rfl, rfl, rfl, fun _ ↦ rfl⟩
  obtain ⟨n', kept, ran⟩ := h σ m
  have shut : n'.place = n.place.shut := (ended.trans kept).place_of_past (kept.pastImports rfl)
  beta_reduce at ran
  rw [ended.place_of_past rfl] at ran
  cases s with
  | importSkill | comment => exact ⟨n, .refl n, rfl, rfl⟩
  | agent | block | binding | assignment | action | parallel | repeated | forEach | loop | attempt
  | throw | choice | conditional =>
    rw [Check.statement_shut k _ _ rfl] at ran
    exact ⟨n', ended.trans kept, shut, ran⟩

mutual

/-- A statement is walked through as it is checked. -/
theorem walk_tells : (s : Statement) → Tells (walk k s) fun p ↦ Check.statement k p s
  | .comment _ => .pure
  | .importSkill i => .checkHere fun p ↦ Check.importSkill k p i
  | .agent a => .check (Check.agent k a)
  | .block ⟨_, params, body, _⟩ => .inScope k _ (walks_tell [] body)
  | .binding kind ⟨name, value, _⟩ =>
    (expr_tells value).seq (.check (Check.declare name (Check.bindingSymbol kind) true)) fun _ ↦ rfl
  | .assignment ⟨name, value, span⟩ =>
    (expr_tells value).seq (.checkHere fun p ↦ Check.assignment p name span) fun _ ↦ rfl
  | .action a => (action_tells a).seq (.check _) fun _ ↦ rfl
  | .parallel ⟨join, onFail, count, keys, body, span⟩ =>
    (Tells.check (Check.parallel ⟨join, onFail, count, keys, body, span⟩)).seq
      (.branches (walks_tell [] body)) fun _ ↦ rfl
  | .repeated ⟨count, index, body, _⟩ =>
    (Tells.check _).seq (.inScope k _ (walks_tell [] body)) fun _ ↦ rfl
  | .forEach ⟨item, index, collection, _, _, _, body, _⟩ =>
    (expr_tells collection).seq (.inScope k _ (walks_tell [] body)) fun _ ↦ rfl
  | .loop ⟨condition, maxIterations, index, _, body, span⟩ =>
    (Tells.check _).seq (.inScope k _ (walks_tell [] body)) fun _ ↦ rfl
  | .attempt ⟨body, handler, cleanup, _⟩ =>
    (Tells.inScope k [] (walks_tell [] body)).seq
      ((handlerBody_tells handler).seq (clauseBody_tells cleanup) (clauseBody_shut k · cleanup))
      fun p ↦ by rw [handlerBody_shut, clauseBody_shut]
  | .throw ⟨some message, _⟩ => .check (Check.string message)
  | .throw ⟨none, span⟩ => .checkHere fun p ↦ Check.noteIf (!p.inHandler) .throwOutsideCatch span
  | .choice ⟨_, options, _⟩ => optionBodies_tell options
  | .conditional ⟨branches, otherwise, _⟩ =>
    (branchBodies_tell branches).seq (clauseBody_tells otherwise) (clauseBody_shut k · otherwise)

/-- The checks of a body tell what is in it. -/
theorem walks_tell (before : List String) :
    (body : List Statement) → Tells (walks k before body) fun p ↦ Check.statements k p before body
  | [] => .checkHere fun p ↦ if p.nested then before.forM Check.markUsed else pure ()
  | s :: rest => by
    intro σ n
    let look : Check Unit :=
      if s.isExecutable && Check.seesPredecessor s then before.forM Check.markUsed else pure ()
    let after := if s.isExecutable then Check.resultNames s else before
    obtain ⟨n₁, kept, placed, ran⟩ := (walk_tells s).visit k (look.run σ).2 n
    obtain ⟨n₂, kept', ran'⟩ := walks_tell after rest
      ((Check.statement k n.place s).run (look.run σ).2).2 n₁
    refine ⟨n₂, kept.trans kept', ?_⟩
    beta_reduce at ran'
    rw [placed] at ran'
    calc (walks k before (s :: rest)).run (σ, n)
        = (walks k after rest).run ((visit k s).run ((look.run σ).2, n)).2 := rfl
      _ = ((), ((Check.statements k n.place before (s :: rest)).run σ).2, n₂) := by
        rw [ran, ran', Check.statements]
        by_cases seen : s.isExecutable && Check.seesPredecessor s
        · simp only [look, if_pos seen]
          rfl
        · simp only [look, if_neg seen]
          rfl

private theorem handlerBody_tells :
    (handler : Option Handler) → Tells (handlerBody k handler) fun p ↦ Check.handlerBody k p handler
  | none => .pure
  | some ⟨_, body, _⟩ => .handling (.inScope k _ (walks_tell [] body))

private theorem clauseBody_tells :
    (clause : Option Body) → Tells (clauseBody k clause) fun p ↦ Check.clauseBody k p clause
  | none => .pure
  | some ⟨body, _⟩ => .inScope k [] (walks_tell [] body)

private theorem optionBodies_tell :
    (options : List ChoiceOption) →
      Tells (optionBodies k options) fun p ↦ Check.optionBodies k p options
  | [] => .pure
  | ⟨label, body, _⟩ :: options =>
    (Tells.check (Check.string label)).seq
      ((Tells.inScope k [] (walks_tell [] body)).seq (optionBodies_tell options)
        (Check.optionBodies_shut k · options))
      fun p ↦ by rw [Check.optionBodies_shut]; rfl

private theorem branchBodies_tell :
    (branches : List Branch) →
      Tells (branchBodies k branches) fun p ↦ Check.branchBodies k p branches
  | [] => .pure
  | ⟨_, _, body, _⟩ :: branches =>
    (Tells.inScope k [] (walks_tell [] body)).seq (branchBodies_tell branches)
      (Check.branchBodies_shut k · branches)

private theorem action_tells : (a : Action) → Tells (action k a) fun p ↦ Check.action k p a
  | .session s => .check (Check.session k s)
  | .pipe ⟨input, operations, _⟩ =>
    (expr_tells input).seq (operationBodies_tell operations)
      (Check.operationBodies_shut k · operations)
  | .doBlock ⟨body, _⟩ => .inScope k [] (walks_tell [] body)
  | .invoke ⟨name, args, span⟩ =>
    (exprs_tell args).seq (.check (Check.invocation k ⟨name, args, span⟩)) fun _ ↦ rfl

private theorem operationBodies_tell :
    (operations : List Operation) →
      Tells (operationBodies k operations) fun p ↦ Check.operationBodies k p operations
  | [] => .pure
  | ⟨_, _, _, body, _⟩ :: operations =>
    (Tells.inScope k _ (walks_tell [] body)).seq (operationBodies_tell operations)
      (Check.operationBodies_shut k · operations)

/-- The checks of a value tell what is in it. -/
theorem expr_tells : (e : Expr) → Tells (expr k e) fun p ↦ Check.expr k p e
  | .action a => action_tells a
  | .string s => .check (Check.string s)
  | .number _ | .discretion _ => .pure
  | .ident name => .check (Check.useName .value name)
  | .array ⟨items, _⟩ => exprs_tell items
  | .object ⟨es, _⟩ => entries_tell es

private theorem exprs_tell : (es : List Expr) → Tells (exprs k es) fun p ↦ Check.exprs k p es
  | [] => .pure
  | e :: es => (expr_tells e).seq (exprs_tell es) (Check.exprs_shut k · es)

private theorem entries_tell : (es : List Entry) → Tells (entries k es) fun p ↦ Check.entries k p es
  | [] => .pure
  | ⟨_, some value⟩ :: es => (expr_tells value).seq (entries_tell es) (Check.entries_shut k · es)
  | ⟨key, none⟩ :: es =>
    (Tells.check (Check.useName .value key)).seq (entries_tell es) (Check.entries_shut k · es)

end

/-- The check of a statement is the one at the place that the counters tell. They end where they
began, and the place is then the one of the statements that follow. -/
theorem visit_run (s : Statement) (σ : CheckState) (n : Counters) :
    ∃ n', n.Kept n' ∧ n'.place = n.place.past s
      ∧ (visit k s).run (σ, n) = ((), ((Check.statement k n.place s).run σ).2, n') :=
  (walk_tells k s).visit k σ n

end Counting

end ProseLang
