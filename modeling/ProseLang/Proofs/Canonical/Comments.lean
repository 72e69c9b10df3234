import ProseLang.Canonical.Compilation
import ProseLang.Proofs.Canonical.Settled
import ProseLang.Proofs.Canonical.Sites

/-!
# Expansion and comments

Comments are left out before expansion or after it, and the program is the same
(`canonical_withoutComments`). Expansion passes over a comment: it gives it no name, counts it as no
branch, and hands on the context of the statement before it. So each step of expansion on a part
without comments gives what it gives on the part, without comments, and counts as many names
(`Commutes`).
-/

namespace ProseLang

/-! ## Steps that differ in what they give only -/

/-- Whether a step of expansion gives what another one gives, seen through `f`, and counts as many
names. -/
def Commutes {α β : Type} (f : α → β) (x : Expand α) (y : Expand β) : Prop :=
  ∀ n, y.run n = (f (x.run n).1, (x.run n).2)

namespace Commutes

variable {α α' β β' : Type} {f : α → α'} {g : β → β'}

/-- A step that gives no name commutes. -/
theorem pure {a : α} {b : α'} (h : b = f a) : Commutes f (pure a) (pure b) := by
  intro n
  subst h
  rfl

/-- A step may rely on what is known of the values before it. -/
theorem bind_of {P : α → Prop} {x : Expand α} {x' : Expand α'} {k : α → Expand β}
    {k' : α' → Expand β'} (hx : Commutes f x x') (known : Yields P x)
    (hk : ∀ a, P a → Commutes g (k a) (k' (f a))) : Commutes g (x >>= k) (x' >>= k') := by
  intro n
  have first := hx n
  have rest := hk _ (known n) (x.run n).2
  change (k' (x'.run n).1).run (x'.run n).2 = _
  rw [first]
  exact rest

/-- One step after another commutes when each of them does. -/
theorem bind {x : Expand α} {x' : Expand α'} {k : α → Expand β} {k' : α' → Expand β'}
    (hx : Commutes f x x') (hk : ∀ a, Commutes g (k a) (k' (f a))) :
    Commutes g (x >>= k) (x' >>= k') :=
  bind_of hx (.any x) fun a _ ↦ hk a

end Commutes

/-! ## Statements -/

namespace Statement

private theorem isComment_withoutComments (s : Statement) :
    s.withoutComments.isComment = s.isComment := by
  cases s <;> rfl

private theorem canonical_isComment (k : Expansion) (context : Context) (s : Statement) :
    Yields (fun t ↦ t.isComment = s.isComment) (s.canonical k context) := by
  intro n
  cases s <;> rfl

/-- What comes after a statement is given the same context with and without its comments. -/
theorem resultContext_withoutComments (s : Statement) :
    s.withoutComments.resultContext = s.resultContext := by
  cases s with
  | parallel p =>
    have names : (bodyWithoutComments p.body).filterMap boundName? = p.body.filterMap boundName? :=
      filterMap_boundName_withoutComments p.body
    change (if ((bodyWithoutComments p.body).filterMap boundName?).isEmpty then Context.empty
      else .object (((bodyWithoutComments p.body).filterMap boundName?).map _)) = _
    rw [names]
    rfl
  | action a => cases a <;> rfl
  | _ => rfl

private theorem asBranch_withoutComments (n : Nat) (s : Statement) :
    s.withoutComments.asBranch n = (s.asBranch n).withoutComments := by
  cases s with
  | action a =>
    cases a with
    | session t =>
      rcases t with ⟨name, _⟩
      cases name <;> rfl
    | _ => rfl
  | _ => rfl

private theorem asBranch_isComment (n : Nat) (s : Statement) :
    (s.asBranch n).isComment = s.isComment := by
  cases s with
  | action a =>
    cases a with
    | session t =>
      rcases t with ⟨name, _⟩
      cases name <;> rfl
    | _ => rfl
  | _ => rfl

private theorem withName_commutes (k : Expansion) (s : Statement) :
    Commutes withoutComments (s.withName k) (s.withoutComments.withName k) := by
  cases s with
  | action a =>
    cases a with
    | session t =>
      rcases t with ⟨name, _⟩
      intro n
      cases name <;> rfl
    | _ => exact .pure rfl
  | _ => exact .pure rfl

private theorem withName_isComment (k : Expansion) (s : Statement) :
    Yields (fun t ↦ t.isComment = s.isComment) (s.withName k) := by
  intro n
  cases s with
  | action a =>
    cases a with
    | session t =>
      rcases t with ⟨name, _⟩
      cases name <;> rfl
    | _ => rfl
  | _ => rfl

end Statement

/-- A comment is left out. -/
theorem bodyWithoutComments_comment {s : Statement} (h : s.isComment = true)
    (body : List Statement) : bodyWithoutComments (s :: body) = bodyWithoutComments body := by
  rw [bodyWithoutComments, if_pos h]

/-- A statement that is no comment stays, without the comments in it. -/
theorem bodyWithoutComments_cons {s : Statement} (h : s.isComment = false) (body : List Statement) :
    bodyWithoutComments (s :: body) = s.withoutComments :: bodyWithoutComments body := by
  rw [bodyWithoutComments, if_neg (by simp [h])]

/-! ## Expansion -/

mutual

private theorem Statement.canonical_commutes (k : Expansion) (context : Context) :
    (s : Statement) →
      Commutes Statement.withoutComments (s.canonical k context)
      (s.withoutComments.canonical k context)
  | .comment _ | .importSkill _ | .agent _ | .throw _ => .pure rfl
  | .block ⟨_, _, body, _⟩ => .bind (canonicalBody_commutes k .empty body) fun _ ↦ .pure rfl
  | .binding _ ⟨_, value, _⟩ => .bind (value.canonical_commutes k context) fun _ ↦ .pure rfl
  | .assignment ⟨_, value, _⟩ => .bind (value.canonical_commutes k context) fun _ ↦ .pure rfl
  | .action a => .bind (a.canonical_commutes k context) fun _ ↦ .pure rfl
  | .parallel ⟨_, _, _, _, body, _⟩ =>
    .bind (canonicalBranches_commutes k context 0 body) fun _ ↦ .pure rfl
  | .repeated ⟨_, _, body, _⟩ => .bind (canonicalBody_commutes k context body) fun _ ↦ .pure rfl
  | .forEach ⟨_, _, _, _, _, _, body, _⟩ =>
    -- the collection keeps its comments, before expansion and after it
    .bind (f := id) (fun _ ↦ rfl) fun _ ↦
      .bind (canonicalBody_commutes k context body) fun _ ↦ .pure rfl
  | .loop ⟨_, _, _, _, body, _⟩ => .bind (canonicalBody_commutes k context body) fun _ ↦ .pure rfl
  | .attempt ⟨body, handler, cleanup, _⟩ =>
    .bind (canonicalBody_commutes k context body) fun _ ↦
      .bind (canonicalHandler_commutes k context handler) fun _ ↦
        .bind (canonicalClause_commutes k context cleanup) fun _ ↦ .pure rfl
  | .choice ⟨_, options, _⟩ => .bind (canonicalOptions_commutes k context options) fun _ ↦ .pure rfl
  | .conditional ⟨branches, otherwise, _⟩ =>
    .bind (canonicalConditions_commutes k context branches) fun _ ↦
      .bind (canonicalClause_commutes k context otherwise) fun _ ↦ .pure rfl

/-- A comment takes no name and hands on the context. -/
theorem canonicalBody_commutes (k : Expansion) (context : Context) :
    (body : List Statement) →
      Commutes bodyWithoutComments (canonicalBody k context body)
        (canonicalBody k context (bodyWithoutComments body))
  | [] => .pure rfl
  | s :: body => by
    cases comment : s.isComment with
    | true =>
      rw [bodyWithoutComments_comment comment]
      cases s with
      | comment c => exact canonicalBody_commutes k context body
      | _ => cases comment
    | false =>
      rw [bodyWithoutComments_cons comment]
      have known : Yields (fun t ↦ t.isComment = false) (s.canonical k context) := by
        rw [← comment]
        exact s.canonical_isComment k context
      apply Commutes.bind_of (s.canonical_commutes k context) known
      intro t ht
      have named : Yields (fun u ↦ u.isComment = false) (t.withName k) := by
        rw [← ht]
        exact t.withName_isComment k
      apply Commutes.bind_of (t.withName_commutes k) named
      intro u hu
      rw [u.isExecutable_withoutComments, u.resultContext_withoutComments]
      apply Commutes.bind (canonicalBody_commutes k _ body)
      intro rest
      exact .pure (bodyWithoutComments_cons hu rest).symm

/-- A comment is not counted as a branch. -/
theorem canonicalBranches_commutes (k : Expansion) (context : Context) (n : Nat) :
    (body : List Statement) →
      Commutes bodyWithoutComments (canonicalBranches k context n body)
        (canonicalBranches k context n (bodyWithoutComments body))
  | [] => .pure rfl
  | s :: body => by
    cases comment : s.isComment with
    | true =>
      rw [bodyWithoutComments_comment comment]
      cases s with
      | comment c => exact canonicalBranches_commutes k context n body
      | _ => cases comment
    | false =>
      rw [bodyWithoutComments_cons comment]
      have known : Yields (fun t ↦ t.isComment = false) (s.canonical k context) := by
        rw [← comment]
        exact s.canonical_isComment k context
      apply Commutes.bind_of (s.canonical_commutes k context) known
      intro t ht
      rw [t.isExecutable_withoutComments]
      split
      · apply Commutes.bind (canonicalBranches_commutes k context (n + 1) body)
        intro rest
        apply Commutes.pure
        rw [bodyWithoutComments_cons ((t.asBranch_isComment n).trans ht),
          t.asBranch_withoutComments]
      · apply Commutes.bind (canonicalBranches_commutes k context n body)
        intro rest
        exact .pure (bodyWithoutComments_cons ht rest).symm

private theorem canonicalHandler_commutes (k : Expansion) (context : Context) :
    (handler : Option Handler) →
      Commutes handlerWithoutComments (canonicalHandler k context handler)
        (canonicalHandler k context (handlerWithoutComments handler))
  | none => .pure rfl
  | some ⟨_, body, _⟩ => .bind (canonicalBody_commutes k context body) fun _ ↦ .pure rfl

private theorem canonicalClause_commutes (k : Expansion) (context : Context) :
    (clause : Option Body) →
      Commutes clauseWithoutComments (canonicalClause k context clause)
        (canonicalClause k context (clauseWithoutComments clause))
  | none => .pure rfl
  | some ⟨body, _⟩ => .bind (canonicalBody_commutes k context body) fun _ ↦ .pure rfl

private theorem canonicalOptions_commutes (k : Expansion) (context : Context) :
    (options : List ChoiceOption) →
      Commutes optionsWithoutComments (canonicalOptions k context options)
        (canonicalOptions k context (optionsWithoutComments options))
  | [] => .pure rfl
  | ⟨_, body, _⟩ :: options =>
    .bind (canonicalBody_commutes k context body) fun _ ↦
      .bind (canonicalOptions_commutes k context options) fun _ ↦ .pure rfl

private theorem canonicalConditions_commutes (k : Expansion) (context : Context) :
    (branches : List Branch) →
      Commutes branchesWithoutComments (canonicalConditions k context branches)
        (canonicalConditions k context (branchesWithoutComments branches))
  | [] => .pure rfl
  | ⟨_, _, body, _⟩ :: branches =>
    .bind (canonicalBody_commutes k context body) fun _ ↦
      .bind (canonicalConditions_commutes k context branches) fun _ ↦ .pure rfl

private theorem Action.canonical_commutes (k : Expansion) (context : Context) :
    (a : Action) →
      Commutes Action.withoutComments (a.canonical k context)
      (a.withoutComments.canonical k context)
  | .session _ => .pure rfl
  | .pipe ⟨input, operations, _⟩ =>
    .bind (input.canonical_commutes k context) fun _ ↦
      .bind (canonicalOperations_commutes k operations) fun _ ↦ .pure rfl
  | .doBlock ⟨body, _⟩ => .bind (canonicalBody_commutes k context body) fun _ ↦ .pure rfl
  | .invoke ⟨_, args, _⟩ => .bind (canonicalValues_commutes k context args) fun _ ↦ .pure rfl

private theorem canonicalOperations_commutes (k : Expansion) :
    (operations : List Operation) →
      Commutes operationsWithoutComments (canonicalOperations k operations)
        (canonicalOperations k (operationsWithoutComments operations))
  | [] => .pure rfl
  | ⟨_, _, _, body, _⟩ :: operations =>
    .bind (canonicalBody_commutes k _ body) fun _ ↦
      .bind (canonicalOperations_commutes k operations) fun _ ↦ .pure rfl

private theorem Expr.canonical_commutes (k : Expansion) (context : Context) :
    (e : Expr) →
      Commutes Expr.withoutComments (e.canonical k context) (e.withoutComments.canonical k context)
  | .action a => .bind (a.canonical_commutes k context) fun _ ↦ .pure rfl
  | .array ⟨items, _⟩ => .bind (canonicalValues_commutes k context items) fun _ ↦ .pure rfl
  | .object ⟨entries, _⟩ => .bind (canonicalEntries_commutes k context entries) fun _ ↦ .pure rfl
  | .string _ | .number _ | .ident _ | .discretion _ => .pure rfl

private theorem canonicalValues_commutes (k : Expansion) (context : Context) :
    (es : List Expr) →
      Commutes valuesWithoutComments (canonicalValues k context es)
        (canonicalValues k context (valuesWithoutComments es))
  | [] => .pure rfl
  | e :: es =>
    .bind (e.canonical_commutes k context) fun _ ↦
      .bind (canonicalValues_commutes k context es) fun _ ↦ .pure rfl

private theorem canonicalEntries_commutes (k : Expansion) (context : Context) :
    (es : List Entry) →
      Commutes entriesWithoutComments (canonicalEntries k context es)
        (canonicalEntries k context (entriesWithoutComments es))
  | [] => .pure rfl
  | ⟨_, some value⟩ :: es =>
    .bind (value.canonical_commutes k context) fun _ ↦
      .bind (canonicalEntries_commutes k context es) fun _ ↦ .pure rfl
  | ⟨_, none⟩ :: es => .bind (canonicalEntries_commutes k context es) fun _ ↦ .pure rfl

end

/-! ## Leaving out comments twice -/

mutual

private theorem Statement.withoutComments_twice :
    (s : Statement) → s.withoutComments.withoutComments = s.withoutComments
  | .comment _ | .importSkill _ | .agent _ | .throw _ => rfl
  | .block ⟨name, params, body, span⟩ =>
    congrArg (fun body ↦ Statement.block ⟨name, params, body, span⟩)
      (bodyWithoutComments_twice body)
  | .binding kind ⟨name, value, span⟩ =>
    congrArg (fun value ↦ Statement.binding kind ⟨name, value, span⟩) value.withoutComments_twice
  | .assignment ⟨name, value, span⟩ =>
    congrArg (fun value ↦ Statement.assignment ⟨name, value, span⟩) value.withoutComments_twice
  | .action a => congrArg Statement.action a.withoutComments_twice
  | .parallel ⟨join, onFail, count, keys, body, span⟩ =>
    congrArg (fun body ↦ Statement.parallel ⟨join, onFail, count, keys, body, span⟩)
      (bodyWithoutComments_twice body)
  | .repeated ⟨count, index, body, span⟩ =>
    congrArg (fun body ↦ Statement.repeated ⟨count, index, body, span⟩)
      (bodyWithoutComments_twice body)
  | .forEach ⟨item, index, collection, isParallel, forKeyword, inKeyword, body, span⟩ =>
    congrArg (fun body ↦ Statement.forEach
      ⟨item, index, collection, isParallel, forKeyword, inKeyword, body, span⟩)
      (bodyWithoutComments_twice body)
  | .loop ⟨condition, maxIterations, index, keys, body, span⟩ =>
    congrArg (fun body ↦ Statement.loop ⟨condition, maxIterations, index, keys, body, span⟩)
      (bodyWithoutComments_twice body)
  | .attempt ⟨body, handler, cleanup, _⟩ => by
    simp only [Statement.withoutComments, bodyWithoutComments_twice body,
      handlerWithoutComments_twice handler, clauseWithoutComments_twice cleanup]
  | .choice ⟨criteria, options, span⟩ =>
    congrArg (fun options ↦ Statement.choice ⟨criteria, options, span⟩)
      (optionsWithoutComments_twice options)
  | .conditional ⟨branches, otherwise, _⟩ => by
    simp only [Statement.withoutComments, branchesWithoutComments_twice branches,
      clauseWithoutComments_twice otherwise]

private theorem bodyWithoutComments_twice :
    (body : List Statement) →
      bodyWithoutComments (bodyWithoutComments body) = bodyWithoutComments body
  | [] => rfl
  | s :: body => by
    cases comment : s.isComment with
    | true => rw [bodyWithoutComments_comment comment, bodyWithoutComments_twice body]
    | false =>
      have code : s.withoutComments.isComment = false := s.isComment_withoutComments.trans comment
      rw [bodyWithoutComments_cons comment, bodyWithoutComments_cons code, s.withoutComments_twice,
        bodyWithoutComments_twice body]

private theorem handlerWithoutComments_twice :
    (handler : Option Handler) →
      handlerWithoutComments (handlerWithoutComments handler) = handlerWithoutComments handler
  | none => rfl
  | some ⟨error, body, span⟩ =>
    congrArg (fun body ↦ some (HandlerOf.mk error body span)) (bodyWithoutComments_twice body)

private theorem clauseWithoutComments_twice :
    (clause : Option Body) →
      clauseWithoutComments (clauseWithoutComments clause) = clauseWithoutComments clause
  | none => rfl
  | some ⟨body, span⟩ =>
    congrArg (fun body ↦ some (BodyOf.mk body span)) (bodyWithoutComments_twice body)

private theorem optionsWithoutComments_twice :
    (options : List ChoiceOption) →
      optionsWithoutComments (optionsWithoutComments options) = optionsWithoutComments options
  | [] => rfl
  | ⟨_, body, _⟩ :: options => by
    simp only [optionsWithoutComments, bodyWithoutComments_twice body,
      optionsWithoutComments_twice options]

private theorem branchesWithoutComments_twice :
    (branches : List Branch) →
      branchesWithoutComments (branchesWithoutComments branches) = branchesWithoutComments branches
  | [] => rfl
  | ⟨_, _, body, _⟩ :: branches => by
    simp only [branchesWithoutComments, bodyWithoutComments_twice body,
      branchesWithoutComments_twice branches]

private theorem Action.withoutComments_twice :
    (a : Action) → a.withoutComments.withoutComments = a.withoutComments
  | .session _ => rfl
  | .pipe ⟨input, operations, _⟩ => by
    simp only [Action.withoutComments, input.withoutComments_twice,
      operationsWithoutComments_twice operations]
  | .doBlock ⟨body, span⟩ =>
    congrArg (fun body ↦ Action.doBlock ⟨body, span⟩) (bodyWithoutComments_twice body)
  | .invoke ⟨name, args, span⟩ =>
    congrArg (fun args ↦ Action.invoke ⟨name, args, span⟩) (valuesWithoutComments_twice args)

private theorem operationsWithoutComments_twice :
    (operations : List Operation) →
      operationsWithoutComments (operationsWithoutComments operations)
        = operationsWithoutComments operations
  | [] => rfl
  | ⟨_, _, _, body, _⟩ :: operations => by
    simp only [operationsWithoutComments, bodyWithoutComments_twice body,
      operationsWithoutComments_twice operations]

private theorem Expr.withoutComments_twice :
    (e : Expr) → e.withoutComments.withoutComments = e.withoutComments
  | .action a => congrArg Expr.action a.withoutComments_twice
  | .array ⟨items, span⟩ =>
    congrArg (fun items ↦ Expr.array ⟨items, span⟩) (valuesWithoutComments_twice items)
  | .object ⟨entries, span⟩ =>
    congrArg (fun entries ↦ Expr.object ⟨entries, span⟩) (entriesWithoutComments_twice entries)
  | .string _ | .number _ | .ident _ | .discretion _ => rfl

private theorem valuesWithoutComments_twice :
    (es : List Expr) → valuesWithoutComments (valuesWithoutComments es) = valuesWithoutComments es
  | [] => rfl
  | e :: es => by
    simp only [valuesWithoutComments, e.withoutComments_twice, valuesWithoutComments_twice es]

private theorem entriesWithoutComments_twice :
    (es : List Entry) → entriesWithoutComments
    (entriesWithoutComments es) = entriesWithoutComments es
  | [] => rfl
  | ⟨_, some value⟩ :: es => by
    simp only [entriesWithoutComments, value.withoutComments_twice, entriesWithoutComments_twice es]
  | ⟨_, none⟩ :: es => by
    simp only [entriesWithoutComments, entriesWithoutComments_twice es]

end

/-! ## Programs -/

/-- Leaving out comments leaves the agents of the top level. -/
theorem Expansion.agents_withoutComments (p : Program) :
    (ofProgram p.withoutComments).agents = (ofProgram p).agents := by
  change (bodyWithoutComments p.statements).filterMap _ = p.statements.filterMap _
  induction p.statements with
  | nil => rfl
  | cons s body ih =>
    rw [bodyWithoutComments]
    split
    · next isComment =>
      cases s with
      | comment c => exact ih
      | _ => cases isComment
    · rw [List.filterMap_cons, List.filterMap_cons, ih]
      cases s <;> rfl

/-- Expansion knows the same of a program without comments. -/
theorem Expansion.ofProgram_withoutComments (p : Program) :
    ofProgram p.withoutComments = ofProgram p := by
  have agents := agents_withoutComments p
  have used : (ofProgram p.withoutComments).used = (ofProgram p).used :=
    p.boundNames_withoutComments
  cases h : ofProgram p
  cases h' : ofProgram p.withoutComments
  simp_all

/-- It does not matter if comments are left out before expansion or after it. -/
theorem Program.withoutComments_canonical (p : Program) :
    p.withoutComments.canonical = p.canonical.withoutComments := by
  have commutes := canonicalBody_commutes (.ofProgram p) .empty p.statements 0
  rw [canonical, Expansion.ofProgram_withoutComments]
  change { p.withoutComments with
    statements := ((canonicalBody (.ofProgram p) .empty
      (bodyWithoutComments p.statements)).run 0).1 }
      = _
  rw [commutes]
  rfl

/-- Without comments there are none to leave out. -/
theorem Program.withoutComments_twice (p : Program) :
    p.withoutComments.withoutComments = p.withoutComments := by
  simp only [withoutComments, bodyWithoutComments_twice]

/-- Whether comments are left out before expansion or after it, the program is the same. So the
option to leave them out changes nothing in what a compilation gives but that it has no comments. -/
theorem canonical_withoutComments (p : Program) :
    p.withoutComments.canonical = p.canonical.withoutComments
      ∧ ∀ options : CompileOptions,
        (compile p { options with stripComments := true }).map Compiled.program
          = (compile p { options with stripComments := false }).map fun c ↦
            c.program.withoutComments := by
  constructor
  · exact p.withoutComments_canonical
  · intro options
    simp only [compile]
    cases options.target.filter (· ≠ canonicalTarget) with
    | some target => rfl
    | none => exact congrArg Except.ok p.withoutComments_canonical

end ProseLang
