import ProseLang.Proofs.Canonical.Hygiene

/-!
# What expansion writes out, in order

The spots of a program are its sessions, each with the context that its place hands to it, its
parallel blocks and its agents, in the order of the text (`Program.spots`). What a place hands to a
session is said here without expansion: in a sequence, the result of the nearest statement before it
that does something (`contextAfter`). Main statement: expansion turns the spots of a program into
those of the canonical one, one by one, and counts the names that it makes up on the way
(`Program.runs_canonical`). Sessions, parallel blocks and agents among the parts of a program are
those at its spots (`Program.flatMap_spots`).
-/

namespace ProseLang

open Expansion

/-! ## Spots -/

/-- A part that expansion writes out or takes settings from. -/
inductive Spot
  /-- A session with what its place hands to it, and whether it is a statement of a sequence. -/
  | session (inSequence : Bool) (context : Context) (s : Session)
  | parallel (p : Parallel)
  | agent (a : Agent)

/-- The context after some statements of a sequence: the result of the last one that does something,
and if there is none, what the sequence is given. -/
def contextAfter (incoming : Context) (before : List Statement) : Context :=
  (((before.filter Statement.isExecutable).getLast?).map Statement.resultContext).getD incoming

/-- The context that the body of a pipe operation is given. -/
def OperationOf.handsIn (o : Operation) : Context :=
  if o.operator.val = .reduce then .list [.made o.accumulatorName, .made o.itemName]
  else .single (.made o.itemName)

mutual

/-- The spots within a statement that is given a context. -/
def Statement.spots (inSequence : Bool) (context : Context) : Statement → List Spot
  | .comment _ | .importSkill _ | .throw _ => []
  | .agent a => [.agent a]
  | .block ⟨_, _, body, _⟩ => bodySpots .empty [] body
  | .binding _ ⟨_, value, _⟩ => value.spots context
  | .assignment ⟨_, value, _⟩ => value.spots context
  | .action a => a.spots inSequence context
  | .parallel ⟨join, onFail, count, keys, body, span⟩ =>
    .parallel ⟨join, onFail, count, keys, body, span⟩ :: branchSpots context body
  | .repeated ⟨_, _, body, _⟩ => bodySpots context [] body
  | .forEach ⟨_, _, collection, _, _, _, body, _⟩ =>
    collection.spots context ++ bodySpots context [] body
  | .loop ⟨_, _, _, _, body, _⟩ => bodySpots context [] body
  | .attempt ⟨body, handler, cleanup, _⟩ =>
    bodySpots context [] body ++ handlerSpots context handler ++ clauseSpots context cleanup
  | .choice ⟨_, options, _⟩ => optionSpots context options
  | .conditional ⟨branches, otherwise, _⟩ =>
    conditionSpots context branches ++ clauseSpots context otherwise

/-- The spots of a sequence that is given a context, after some statements of it. -/
def bodySpots (incoming : Context) (before : List Statement) : List Statement → List Spot
  | [] => []
  | s :: body =>
    s.spots true (contextAfter incoming before) ++ bodySpots incoming (before ++ [s]) body

/-- The spots of branches, which are all given the same context. -/
def branchSpots (context : Context) : List Statement → List Spot
  | [] => []
  | s :: body => s.spots false context ++ branchSpots context body

/-- The spots within a handler. -/
def handlerSpots (context : Context) : Option Handler → List Spot
  | none => []
  | some ⟨_, body, _⟩ => bodySpots context [] body

/-- The spots within a clause that has a body only. -/
def clauseSpots (context : Context) : Option Body → List Spot
  | none => []
  | some ⟨body, _⟩ => bodySpots context [] body

/-- The spots within the options of a choice. -/
def optionSpots (context : Context) : List ChoiceOption → List Spot
  | [] => []
  | ⟨_, body, _⟩ :: options => bodySpots context [] body ++ optionSpots context options

/-- The spots within conditional branches. -/
def conditionSpots (context : Context) : List Branch → List Spot
  | [] => []
  | ⟨_, _, body, _⟩ :: branches => bodySpots context [] body ++ conditionSpots context branches

/-- The spots within an action. -/
def Action.spots (inSequence : Bool) (context : Context) : Action → List Spot
  | .session s => [.session inSequence context s]
  | .pipe ⟨input, operations, _⟩ => input.spots context ++ operationSpots operations
  | .doBlock ⟨body, _⟩ => bodySpots context [] body
  | .invoke ⟨_, args, _⟩ => valueSpots context args

/-- The spots within pipe operations. -/
def operationSpots : List Operation → List Spot
  | [] => []
  | ⟨operator, item, accumulator, body, span⟩ :: operations =>
    bodySpots (OperationOf.handsIn ⟨operator, item, accumulator, [], span⟩) [] body
      ++ operationSpots operations

/-- The spots within a value. -/
def Expr.spots (context : Context) : Expr → List Spot
  | .action a => a.spots false context
  | .array ⟨items, _⟩ => valueSpots context items
  | .object ⟨entries, _⟩ => entrySpots context entries
  | .string _ | .number _ | .ident _ | .discretion _ => []

/-- The spots within values. -/
def valueSpots (context : Context) : List Expr → List Spot
  | [] => []
  | e :: es => e.spots context ++ valueSpots context es

/-- The spots within the entries of an object. -/
def entrySpots (context : Context) : List Entry → List Spot
  | [] => []
  | ⟨_, some value⟩ :: es => value.spots context ++ entrySpots context es
  | ⟨_, none⟩ :: es => entrySpots context es

end

/-- The spots of a program, which starts with nothing to hand on. -/
def Program.spots (p : Program) : List Spot := bodySpots .empty [] p.statements

/-! ## Results of branches -/

/-- Whether a statement is an action whose result has no name. -/
def Statement.isUnnamed : Statement → Bool
  | .action a => a.resultName?.isNone
  | _ => false

/-- The names of the results of branches after expansion, from the `n`th that does something on. -/
def branchResults (n : Nat) : List Statement → List (Option Ident)
  | [] => []
  | s :: body =>
    (if s.isUnnamed then some (.made (branchName n)) else s.boundName?)
      :: branchResults (if s.isExecutable then n + 1 else n) body

/-! ## Steps -/

namespace Expansion

/-- Whether expansion turns one spot into another, and the names for sessions, of which it has
counted up to `n` before, are counted up to `m` after. -/
inductive Turns (k : Expansion) : Nat → Spot → Spot → Nat → Prop
  /-- A session of a sequence that has no name gets one. -/
  | unnamed {n : Nat} (s : Session) (h : s.name = none) (old context : Context) :
    Turns k n (.session true old s)
      (.session true context
        { k.session context s with name := some (.made (anonymousName (freshIndex k.used n))) })
      (freshIndex k.used n + 1)
  | session {n : Nat} (inSequence : Bool) (s : Session) (h : inSequence = true → s.name.isSome)
    (old context : Context) :
    Turns k n (.session inSequence old s) (.session inSequence context (k.session context s)) n
  | parallel {n : Nat} {p p' : Parallel}
    (h : p'.body.map Statement.boundName? = branchResults 0 p.body) :
    Turns k n (.parallel p) (.parallel p') n
  | agent {n : Nat} (a : Agent) : Turns k n (.agent a) (.agent a) n

/-- Whether expansion turns spots into others one by one. -/
inductive Runs (k : Expansion) : Nat → List Spot → List Spot → Nat → Prop
  | nil {n : Nat} : Runs k n [] [] n
  | cons {n m l : Nat} {x x' : Spot} {xs xs' : List Spot} (first : Turns k n x x' m)
    (rest : Runs k m xs xs' l) : Runs k n (x :: xs) (x' :: xs') l

variable {k : Expansion} {n m l : Nat} {xs xs' ys ys' : List Spot}

private theorem Turns.runs {x x' : Spot} (h : k.Turns n x x' m) :
    k.Runs n [x] [x'] m := .cons h .nil

private theorem Runs.append (h : k.Runs n xs xs' m) (h' : k.Runs m ys ys' l) :
    k.Runs n (xs ++ ys) (xs' ++ ys') l := by
  induction h with
  | nil => exact h'
  | cons first _ ih => exact .cons first (ih h')

end Expansion

private theorem contextAfter_snoc (incoming : Context) (before : List Statement) (s : Statement) :
    contextAfter incoming (before ++ [s])
      = if s.isExecutable then s.resultContext else contextAfter incoming before := by
  rw [contextAfter, List.filter_append]
  split
  · next h =>
    rw [List.filter_cons_of_pos h, List.filter_nil, List.getLast?_append]
    rfl
  · next h =>
    rw [List.filter_cons_of_neg h, List.filter_nil, List.append_nil]
    rfl

/-- The body of a pipe operation is given the same names where they are written out. -/
theorem OperationOf.handsIn_canonical (operator : Located PipeOperator)
    (item accumulator : Option Ident) (span : Span) :
    let header : Operation := ⟨operator, item, accumulator, [], span⟩
    handsIn ⟨operator, some header.itemIdent, header.accumulatorIdent?, [], span⟩
      = header.bodyContext := by
  intro header
  simp only [handsIn, bodyContext, accumulatorIdent?]
  split
  · rfl
  · rfl

/-! ## Statements -/

/-- A session that is written out keeps its name. -/
theorem Expansion.session_name (k : Expansion) (context : Context) (s : Session) :
    (k.session context s).name = s.name := by
  change (k.withAgent s).name = s.name
  unfold withAgent
  split <;> rfl

namespace Statement

/-- The name of a session that is a statement of a sequence is written after its settings. -/
theorem withName_runs {k : Expansion} {old context : Context} {n : Nat} (s : Statement)
    (h : Expands n (fun t m ↦ k.Runs n (s.spots false old) (t.spots false context) m)
      (s.canonical k context)) :
    Expands n (fun t m ↦ k.Runs n (s.spots true old) (t.spots true context) m)
      (do (← s.canonical k context).withName k) := by
  cases s with
  | action a =>
    cases a with
    | session s =>
      have kept := k.session_name context s
      change Expands n _ ((action (.session (k.session context s))).withName k)
      unfold withName
      cases unnamed : s.name with
      | none =>
        rw [unnamed] at kept
        simp only [kept]
        have later : n ≤ freshIndex k.used n + 1 := Nat.le_succ_of_le (start_le_freshIndex k.used n)
        exact ⟨later, (Turns.unnamed s unnamed old context).runs⟩
      | some name =>
        rw [unnamed] at kept
        simp only [kept]
        have named : true = true → s.name.isSome := fun _ ↦ by rw [unnamed]; rfl
        exact .pure (Turns.session true s named old context).runs
    | _ => exact h
  | _ => exact h

private theorem canonical_isExecutable (k : Expansion) (context : Context) (s : Statement) :
    Yields (fun t ↦ t.isExecutable = s.isExecutable) (s.canonical k context) := by
  intro n
  cases s <;> rfl

private theorem canonical_isUnnamed (k : Expansion) (context : Context) (s : Statement) :
    Yields (fun t ↦ t.isUnnamed = s.isUnnamed) (s.canonical k context) := by
  cases s with
  | action a =>
    refine .bind (a.canonical_resultName k context) ?_
    intro b same
    exact .pure (congrArg Option.isNone same)
  | _ =>
    intro n
    rfl

private theorem asBranch_boundName (n : Nat) (s : Statement) :
    (s.asBranch n).boundName? = if s.isUnnamed then some
    (.made (branchName n)) else s.boundName? := by
  cases s with
  | action a =>
    cases a with
    | session s =>
      rcases s with ⟨name, _⟩
      cases name <;> rfl
    | _ => rfl
  | _ => rfl

/-- An action is the same spots as the value of an assignment. -/
theorem asBranch_spots (n : Nat) (context : Context) (s : Statement) :
    (s.asBranch n).spots false context = s.spots false context := by
  cases s with
  | action a =>
    cases a with
    | session s =>
      rcases s with ⟨name, _⟩
      cases name <;> rfl
    | _ => rfl
  | _ => rfl

end Statement

/-- Branches are named by how many before them do something. -/
theorem canonicalBranches_results (k : Expansion) (context : Context) (n : Nat)
    (body : List Statement) :
    Yields (fun body' ↦ body'.map Statement.boundName? = branchResults n body)
      (canonicalBranches k context n body) := by
  induction body generalizing n with
  | nil => exact .pure rfl
  | cons s body ih =>
    have kept := ((s.canonical_boundName k context).and (s.canonical_isUnnamed k context)).and
      (s.canonical_isExecutable k context)
    refine .bind kept ?_
    rintro t ⟨⟨name, unnamed⟩, executable⟩
    rw [branchResults, ← name, ← unnamed, ← executable]
    cases active : t.isExecutable with
    | true =>
      refine .bind (ih (n + 1)) ?_
      intro rest same
      apply Yields.pure
      rw [List.map_cons, t.asBranch_boundName, same]
      rfl
    | false =>
      have named : t.isUnnamed = false := by
        cases t with
        | action => cases active
        | _ => rfl
      refine .bind (ih n) ?_
      intro rest same
      apply Yields.pure
      rw [List.map_cons, named, same]
      rfl

/-! ## Expansion -/

section

variable (k : Expansion)

mutual

private theorem Statement.canonical_runs (old context : Context) :
    (s : Statement) → (n : Nat) →
      Expands n (fun t m ↦ k.Runs n (s.spots false old) (t.spots false context) m)
        (s.canonical k context)
  | .comment _, _ | .importSkill _, _ | .throw _, _ => .pure .nil
  | .agent a, _ => .pure (Turns.agent a).runs
  | .block ⟨_, _, body, _⟩, n =>
    .bind (canonicalBody_runs .empty .empty [] [] body n) fun _ _ _ h ↦ .pure h
  | .binding _ ⟨_, value, _⟩, n => .bind (value.canonical_runs old context n) fun _ _ _ h ↦ .pure h
  | .assignment ⟨_, value, _⟩, n =>
    .bind (value.canonical_runs old context n) fun _ _ _ h ↦ .pure h
  | .action a, n => .bind (a.canonical_runs old context n) fun _ _ _ h ↦ .pure h
  | .parallel ⟨_, _, _, _, body, _⟩, n =>
    .bind ((canonicalBranches_runs old context 0 body n).also
      (canonicalBranches_results k context 0 body))
      fun _ _ _ h ↦ .pure (.cons (.parallel h.2) h.1)
  | .repeated ⟨_, _, body, _⟩, n =>
    .bind (canonicalBody_runs old context [] [] body n) fun _ _ _ h ↦ .pure h
  | .forEach ⟨_, _, collection, _, _, _, body, _⟩, n =>
    .bind (collection.canonical_runs old context n) fun _ m _ hc ↦
      .bind (canonicalBody_runs old context [] [] body m) fun _ _ _ hb ↦ .pure (hc.append hb)
  | .loop ⟨_, _, _, _, body, _⟩, n =>
    .bind (canonicalBody_runs old context [] [] body n) fun _ _ _ h ↦ .pure h
  | .attempt ⟨body, handler, cleanup, _⟩, n =>
    .bind (canonicalBody_runs old context [] [] body n) fun _ m _ hb ↦
      .bind (canonicalHandler_runs old context handler m) fun _ l _ hh ↦
        .bind (canonicalClause_runs old context cleanup l) fun _ _ _ hc ↦
          .pure ((hb.append hh).append hc)
  | .choice ⟨_, options, _⟩, n =>
    .bind (canonicalOptions_runs old context options n) fun _ _ _ h ↦ .pure h
  | .conditional ⟨branches, otherwise, _⟩, n =>
    .bind (canonicalConditions_runs old context branches n) fun _ m _ hb ↦
      .bind (canonicalClause_runs old context otherwise m) fun _ _ _ ho ↦ .pure (hb.append ho)

/-- What is handed on in a sequence is the result of the nearest statement that does something. -/
theorem canonicalBody_runs (old incoming : Context) (earlier before : List Statement) :
    (body : List Statement) → (n : Nat) →
      Expands n
        (fun body' m ↦ k.Runs n (bodySpots old earlier body) (bodySpots incoming before body') m)
        (canonicalBody k (contextAfter incoming before) body)
  | [], _ => .pure .nil
  | s :: body, n => by
    have first := s.withName_runs
      (s.canonical_runs (contextAfter old earlier) (contextAfter incoming before) n)
    have split : canonicalBody k (contextAfter incoming before) (s :: body)
        = (do (← s.canonical k (contextAfter incoming before)).withName k) >>= fun t ↦ do
          return t :: (← canonicalBody k (contextAfter incoming (before ++ [t])) body) := by
      simp only [contextAfter_snoc]
      rfl
    rw [split]
    apply Expands.bind first
    intro t m _ ht
    apply Expands.bind (canonicalBody_runs old incoming (earlier ++ [s]) (before ++ [t]) body m)
    intro rest l _ hr
    exact .pure (ht.append hr)

private theorem canonicalBranches_runs (old context : Context) (i : Nat) :
    (body : List Statement) → (n : Nat) →
      Expands n (fun body' m ↦ k.Runs n (branchSpots old body) (branchSpots context body') m)
        (canonicalBranches k context i body)
  | [], _ => .pure .nil
  | s :: body, n => by
    apply Expands.bind (s.canonical_runs old context n)
    intro t m _ ht
    split
    · apply Expands.bind (canonicalBranches_runs old context (i + 1) body m)
      intro rest l _ hr
      rw [← t.asBranch_spots i] at ht
      exact .pure (ht.append hr)
    · apply Expands.bind (canonicalBranches_runs old context i body m)
      intro rest l _ hr
      exact .pure (ht.append hr)

private theorem canonicalHandler_runs (old context : Context) :
    (handler : Option Handler) → (n : Nat) →
      Expands n
        (fun handler' m ↦ k.Runs n (handlerSpots old handler) (handlerSpots context handler') m)
        (canonicalHandler k context handler)
  | none, _ => .pure .nil
  | some ⟨_, body, _⟩, n =>
    .bind (canonicalBody_runs old context [] [] body n) fun _ _ _ h ↦ .pure h

private theorem canonicalClause_runs (old context : Context) :
    (clause : Option Body) → (n : Nat) →
      Expands n (fun clause' m ↦ k.Runs n (clauseSpots old clause) (clauseSpots context clause') m)
        (canonicalClause k context clause)
  | none, _ => .pure .nil
  | some ⟨body, _⟩, n =>
    .bind (canonicalBody_runs old context [] [] body n) fun _ _ _ h ↦ .pure h

private theorem canonicalOptions_runs (old context : Context) :
    (options : List ChoiceOption) → (n : Nat) →
      Expands n
        (fun options' m ↦ k.Runs n (optionSpots old options) (optionSpots context options') m)
        (canonicalOptions k context options)
  | [], _ => .pure .nil
  | ⟨_, body, _⟩ :: options, n =>
    .bind (canonicalBody_runs old context [] [] body n) fun _ m _ hb ↦
      .bind (canonicalOptions_runs old context options m) fun _ _ _ ho ↦ .pure (hb.append ho)

private theorem canonicalConditions_runs (old context : Context) :
    (branches : List Branch) → (n : Nat) →
      Expands n
        (fun branches' m ↦ k.Runs n (conditionSpots old branches)
          (conditionSpots context branches') m)
        (canonicalConditions k context branches)
  | [], _ => .pure .nil
  | ⟨_, _, body, _⟩ :: branches, n =>
    .bind (canonicalBody_runs old context [] [] body n) fun _ m _ hb ↦
      .bind (canonicalConditions_runs old context branches m) fun _ _ _ ho ↦ .pure (hb.append ho)

private theorem Action.canonical_runs (old context : Context) :
    (a : Action) → (n : Nat) →
      Expands n (fun b m ↦ k.Runs n (a.spots false old) (b.spots false context) m)
        (a.canonical k context)
  | .session s, _ =>
    .pure (Turns.session false s (fun h ↦ absurd h Bool.false_ne_true) old context).runs
  | .pipe ⟨input, operations, _⟩, n =>
    .bind (input.canonical_runs old context n) fun _ m _ hi ↦
      .bind (canonicalOperations_runs operations m) fun _ _ _ ho ↦ .pure (hi.append ho)
  | .doBlock ⟨body, _⟩, n =>
    .bind (canonicalBody_runs old context [] [] body n) fun _ _ _ h ↦ .pure h
  | .invoke ⟨_, args, _⟩, n =>
    .bind (canonicalValues_runs old context args n) fun _ _ _ h ↦ .pure h

private theorem canonicalOperations_runs :
    (operations : List Operation) → (n : Nat) →
      Expands n (fun operations' m ↦ k.Runs n (operationSpots operations)
        (operationSpots operations') m) (canonicalOperations k operations)
  | [], _ => .pure .nil
  | ⟨operator, item, accumulator, body, span⟩ :: operations, n => by
    have within := canonicalBody_runs (OperationOf.handsIn ⟨operator, item, accumulator, [], span⟩)
      (OperationOf.bodyContext ⟨operator, item, accumulator, [], span⟩) [] [] body n
    apply Expands.bind within
    intro body' m _ hb
    apply Expands.bind (canonicalOperations_runs operations m)
    intro rest l _ hr
    apply Expands.pure
    rw [← OperationOf.handsIn_canonical] at hb
    exact hb.append hr

private theorem Expr.canonical_runs (old context : Context) :
    (e : Expr) → (n : Nat) →
      Expands n (fun e' m ↦ k.Runs n (e.spots old) (e'.spots context) m) (e.canonical k context)
  | .action a, n => .bind (a.canonical_runs old context n) fun _ _ _ h ↦ .pure h
  | .array ⟨items, _⟩, n => .bind (canonicalValues_runs old context items n) fun _ _ _ h ↦ .pure h
  | .object ⟨entries, _⟩, n =>
    .bind (canonicalEntries_runs old context entries n) fun _ _ _ h ↦ .pure h
  | .string _, _ | .number _, _ | .ident _, _ | .discretion _, _ => .pure .nil

private theorem canonicalValues_runs (old context : Context) :
    (es : List Expr) → (n : Nat) →
      Expands n (fun es' m ↦ k.Runs n (valueSpots old es) (valueSpots context es') m)
        (canonicalValues k context es)
  | [], _ => .pure .nil
  | e :: es, n =>
    .bind (e.canonical_runs old context n) fun _ m _ he ↦
      .bind (canonicalValues_runs old context es m) fun _ _ _ hs ↦ .pure (he.append hs)

private theorem canonicalEntries_runs (old context : Context) :
    (es : List Entry) → (n : Nat) →
      Expands n (fun es' m ↦ k.Runs n (entrySpots old es) (entrySpots context es') m)
        (canonicalEntries k context es)
  | [], _ => .pure .nil
  | ⟨_, some value⟩ :: es, n =>
    .bind (value.canonical_runs old context n) fun _ m _ hv ↦
      .bind (canonicalEntries_runs old context es m) fun _ _ _ hs ↦ .pure (hv.append hs)
  | ⟨_, none⟩ :: es, n => .bind (canonicalEntries_runs old context es n) fun _ _ _ h ↦ .pure h

end

end

/-- Expansion turns the spots of a program into those of its canonical form. -/
theorem Program.runs_canonical (p : Program) :
    ∃ m, (Expansion.ofProgram p).Runs 0 p.spots p.canonical.spots m :=
  ⟨_, (canonicalBody_runs (.ofProgram p) .empty .empty [] [] p.statements 0).2⟩

/-! ## Spots among the parts of a program -/

/-- Whether a part is one that spots are made for. -/
def Visit.isSpot : Visit → Bool
  | .statement (.agent _) | .statement (.parallel _) | .action (.session _) => true
  | _ => false

/-- What is found at a spot: in an agent or a session also what is within it, if one is to look
there. -/
def Spot.found {β : Type} (inside : Visit → Bool) (look : Visit → List β) : Spot → List β
  | .session _ _ s =>
    (Visit.opened inside (.action (.session s)) ((Action.session s).visits inside)).flatMap look
  | .parallel p => look (.statement (.parallel p))
  | .agent a =>
    (Visit.opened inside (.statement (.agent a)) ((Statement.agent a).visits inside)).flatMap look

section

-- the theorems of the mutual block share the hypotheses, and some need them for the others only
set_option linter.unusedSectionVars false

variable {β : Type} {inside : Visit → Bool} {look : Visit → List β}

private theorem flatMap_opened_plain {v : Visit} (here : look v = []) (opens : inside v = true)
    (within : List Visit) : (Visit.opened inside v within).flatMap look = within.flatMap look := by
  rw [flatMap_opened, here, if_pos opens]
  rfl

variable (only : ∀ v, v.isSpot = false → look v = [])
  (opens : ∀ v, outsideDefinitions v = true → inside v = true)
include only opens

mutual

private theorem Statement.flatMap_spots (inSequence : Bool) (context : Context) :
    (s : Statement) →
      (Visit.opened inside (.statement s) (s.visits inside)).flatMap look
        = (s.spots inSequence context).flatMap (Spot.found inside look)
  | .comment _ => by
    rw [flatMap_opened_plain (only _ rfl) (opens _ rfl)]
    rfl
  | .importSkill _ => by
    rw [flatMap_opened_plain (only _ rfl) (opens _ rfl)]
    simp [Statement.visits, Statement.spots, only (.string _) rfl]
  | .throw t => by
    rw [flatMap_opened_plain (only _ rfl) (opens _ rfl)]
    rcases t with ⟨_ | message, _⟩
    · rfl
    · simp [Statement.visits, Statement.spots, Visit.strings, only (.string _) rfl]
  | .agent a => (List.append_nil _).symm
  | .block ⟨_, _, body, _⟩ =>
    (flatMap_opened_plain (only _ rfl) (opens _ rfl) _).trans (flatMap_bodySpots .empty [] body)
  | .binding _ ⟨_, value, _⟩ =>
    (flatMap_opened_plain (only _ rfl) (opens _ rfl) _).trans (value.flatMap_spots context)
  | .assignment ⟨_, value, _⟩ =>
    (flatMap_opened_plain (only _ rfl) (opens _ rfl) _).trans (value.flatMap_spots context)
  | .action a =>
    (flatMap_opened_plain (only _ rfl) (opens _ rfl) _).trans (a.flatMap_spots inSequence context)
  | .parallel ⟨_, _, _, _, body, _⟩ => by
    rw [flatMap_opened, if_pos (opens _ rfl)]
    exact congrArg _ (flatMap_branchSpots context body)
  | .repeated ⟨_, _, body, _⟩ =>
    (flatMap_opened_plain (only _ rfl) (opens _ rfl) _).trans (flatMap_bodySpots context [] body)
  | .forEach ⟨_, _, collection, _, _, _, body, _⟩ => by
    rw [flatMap_opened_plain (only _ rfl) (opens _ rfl)]
    simp only [Statement.visits, Statement.spots, List.flatMap_append,
      collection.flatMap_spots context, flatMap_bodySpots context [] body]
  | .loop ⟨condition, _, _, _, body, _⟩ => by
    rw [flatMap_opened_plain (only _ rfl) (opens _ rfl)]
    cases condition with
    | none => exact flatMap_bodySpots context [] body
    | some condition =>
      change look (.discretion condition.discretion) ++ (bodyVisits inside body).flatMap look = _
      rw [only (.discretion _) rfl]
      exact flatMap_bodySpots context [] body
  | .attempt ⟨body, handler, cleanup, _⟩ => by
    rw [flatMap_opened_plain (only _ rfl) (opens _ rfl)]
    simp only [Statement.visits, Statement.spots, List.flatMap_append,
      flatMap_bodySpots context [] body, flatMap_handlerSpots context handler,
      flatMap_clauseSpots context cleanup]
  | .choice ⟨_, options, _⟩ => by
    rw [flatMap_opened_plain (only _ rfl) (opens _ rfl)]
    simp only [Statement.visits, Statement.spots, List.flatMap_cons, only (.discretion _) rfl,
      flatMap_optionSpots context options, List.nil_append]
  | .conditional ⟨branches, otherwise, _⟩ => by
    rw [flatMap_opened_plain (only _ rfl) (opens _ rfl)]
    simp only [Statement.visits, Statement.spots, List.flatMap_append,
      flatMap_conditionSpots context branches, flatMap_clauseSpots context otherwise]

private theorem flatMap_bodySpots (incoming : Context) (before : List Statement) :
    (body : List Statement) →
      (bodyVisits inside body).flatMap look
        = (bodySpots incoming before body).flatMap (Spot.found inside look)
  | [] => rfl
  | s :: body => by
    simp only [bodyVisits, bodySpots, List.flatMap_append, List.flatMap_cons,
      only .statementEnd rfl, List.nil_append,
      s.flatMap_spots true (contextAfter incoming before),
      flatMap_bodySpots incoming (before ++ [s]) body]

private theorem flatMap_branchSpots (context : Context) :
    (body : List Statement) →
      (bodyVisits inside body).flatMap look
        = (branchSpots context body).flatMap (Spot.found inside look)
  | [] => rfl
  | s :: body => by
    simp only [bodyVisits, branchSpots, List.flatMap_append, List.flatMap_cons,
      only .statementEnd rfl, List.nil_append, s.flatMap_spots false context,
      flatMap_branchSpots context body]

private theorem flatMap_handlerSpots (context : Context) :
    (handler : Option Handler) →
      (handlerVisits inside handler).flatMap look
        = (handlerSpots context handler).flatMap (Spot.found inside look)
  | none => rfl
  | some ⟨_, body, _⟩ => flatMap_bodySpots context [] body

private theorem flatMap_clauseSpots (context : Context) :
    (clause : Option Body) →
      (clauseVisits inside clause).flatMap look
        = (clauseSpots context clause).flatMap (Spot.found inside look)
  | none => rfl
  | some ⟨body, _⟩ => flatMap_bodySpots context [] body

private theorem flatMap_optionSpots (context : Context) :
    (options : List ChoiceOption) →
      (optionVisits inside options).flatMap look
        = (optionSpots context options).flatMap (Spot.found inside look)
  | [] => rfl
  | ⟨_, body, _⟩ :: options => by
    simp only [optionVisits, optionSpots, List.flatMap_append, List.flatMap_cons,
      only (.string _) rfl, List.nil_append, List.cons_append, flatMap_bodySpots context [] body,
      flatMap_optionSpots context options]

private theorem flatMap_conditionSpots (context : Context) :
    (branches : List Branch) →
      (branchVisits inside branches).flatMap look
        = (conditionSpots context branches).flatMap (Spot.found inside look)
  | [] => rfl
  | ⟨_, _, body, _⟩ :: branches => by
    simp only [branchVisits, conditionSpots, List.flatMap_append, List.flatMap_cons,
      only (.discretion _) rfl, List.nil_append, List.cons_append,
        flatMap_bodySpots context [] body,
      flatMap_conditionSpots context branches]

private theorem Action.flatMap_spots (inSequence : Bool) (context : Context) :
    (a : Action) →
      (Visit.opened inside (.action a) (a.visits inside)).flatMap look
        = (a.spots inSequence context).flatMap (Spot.found inside look)
  | .session _ => (List.append_nil _).symm
  | .pipe ⟨input, operations, _⟩ => by
    rw [flatMap_opened_plain (only _ rfl) (opens _ rfl)]
    simp only [Action.visits, Action.spots, List.flatMap_append, input.flatMap_spots context,
      flatMap_operationSpots operations]
  | .doBlock ⟨body, _⟩ =>
    (flatMap_opened_plain (only _ rfl) (opens _ rfl) _).trans (flatMap_bodySpots context [] body)
  | .invoke ⟨_, args, _⟩ =>
    (flatMap_opened_plain (only _ rfl) (opens _ rfl) _).trans (flatMap_valueSpots context args)

private theorem flatMap_operationSpots :
    (operations : List Operation) →
      (operationVisits inside operations).flatMap look
        = (operationSpots operations).flatMap (Spot.found inside look)
  | [] => rfl
  | ⟨operator, item, accumulator, body, span⟩ :: operations => by
    simp only [operationVisits, operationSpots, List.flatMap_append,
      flatMap_opened_plain (only (.operation _) rfl) (opens (.operation _) rfl),
      flatMap_bodySpots (OperationOf.handsIn ⟨operator, item, accumulator, [], span⟩) [] body,
      flatMap_operationSpots operations]

private theorem Expr.flatMap_spots (context : Context) :
    (e : Expr) → (e.visits inside).flatMap look = (e.spots context).flatMap (Spot.found inside look)
  | .action a => a.flatMap_spots false context
  | .array ⟨items, _⟩ => by
    simp only [Expr.visits, Expr.spots, List.flatMap_cons, only (.value _) rfl, List.nil_append,
      flatMap_valueSpots context items]
  | .object ⟨entries, _⟩ => by
    simp only [Expr.visits, Expr.spots, List.flatMap_cons, only (.value _) rfl, List.nil_append,
      flatMap_entrySpots context entries]
  | .string _ => by simp [Expr.visits, Expr.spots, only (.value _) rfl, only (.string _) rfl]
  | .number _ => by simp [Expr.visits, Expr.spots, only (.value _) rfl]
  | .ident _ => by simp [Expr.visits, Expr.spots, only (.value _) rfl, only (.reference _) rfl]
  | .discretion _ => by
    simp [Expr.visits, Expr.spots, only (.value _) rfl, only (.discretion _) rfl]

private theorem flatMap_valueSpots (context : Context) :
    (es : List Expr) →
      (valueVisits inside es).flatMap look
        = (valueSpots context es).flatMap (Spot.found inside look)
  | [] => rfl
  | e :: es => by
    simp only [valueVisits, valueSpots, List.flatMap_append, e.flatMap_spots context,
      flatMap_valueSpots context es]

private theorem flatMap_entrySpots (context : Context) :
    (es : List Entry) →
      (entryVisits inside es).flatMap look
        = (entrySpots context es).flatMap (Spot.found inside look)
  | [] => rfl
  | ⟨_, some value⟩ :: es => by
    simp only [entryVisits, entrySpots, List.flatMap_append, value.flatMap_spots context,
      flatMap_entrySpots context es]
  | ⟨_, none⟩ :: es => by
    simp only [entryVisits, entrySpots, List.flatMap_cons, only (.reference _) rfl,
      List.nil_append, flatMap_entrySpots context es]

end

/-- What is looked for at spots only is found at the spots of a program. -/
theorem Program.flatMap_spots (p : Program) :
    (bodyVisits inside p.statements).flatMap look = p.spots.flatMap (Spot.found inside look) :=
  flatMap_bodySpots only opens .empty [] p.statements

end

end ProseLang
