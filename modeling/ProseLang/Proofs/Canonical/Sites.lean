import ProseLang.Proofs.Canonical.Stripping
import ProseLang.Proofs.Validation.Independence
import ProseLang.Validation.Check

/-!
# Results that are handed down

A session without a context takes the result of the statement before it or, at the start of a body,
what the statement around the body takes; in the body of a pipe operation that is what the operation
names. `Program.sites` lists the sessions of a program in order, each with what names mean at its
place and with the names that are handed down to it (`Given`).

A name that is handed down comes with the binding that it stands for (`Env.locate`). It passes
loops, handlers and the branches of parallel blocks, and any of these may declare a name for what
follows. The declaration of another name does not change what it stands for (`Env.locate_enter`,
`Statement.locate_envAfter`).
-/

namespace ProseLang

/-! ## Bindings -/

namespace Env

/-- The binding that a name stands for: the number of scopes around its own, and what introduces it.
No two scopes that are open at one point have the same number. -/
def locate : Env → String → Option (Nat × Declaration)
  | [], _ => none
  | scope :: Γ, name =>
    match scope name with
    | some d => some (Γ.length, d)
    | none => locate Γ name

/-- A name is found in some scope if it means something. -/
theorem isSome_locate (Γ : Env) (name : String) :
    (Γ.locate name).isSome = (Γ.resolve name).isSome := by
  induction Γ with
  | nil => rfl
  | cons scope Γ ih =>
    rw [locate, resolve_cons]
    cases scope name with
    | none => exact ih
    | some d => rfl

/-- The declaration of another name. -/
theorem locate_bind {Γ : Env} {x : Ident} {name : String} (kind : SymbolKind) (h : x.val ≠ name) :
    (Γ.bind x kind).locate name = Γ.locate name := by
  have same (scope : String → Option Declaration) : extend scope x kind name = scope name := by
    rw [extend, if_neg h, Option.or_none]
  cases Γ with
  | nil => simp only [bind, List.headD_nil, List.tail_nil, locate, same, emptyScope]
  | cons scope Γ => rw [bind, locate, locate, List.headD_cons, List.tail_cons, same]

/-- A scope that starts with other names. -/
theorem locate_enter {Γ : Env} {names : List Ident} {name : String} (kind : SymbolKind)
    (h : name ∉ names.map Located.val) : (Γ.enter kind names).locate name = Γ.locate name := by
  have start : locate (emptyScope :: Γ) name = Γ.locate name := rfl
  rw [enter, ← start]
  generalize (emptyScope :: Γ : Env) = Δ
  induction names generalizing Δ with
  | nil => rfl
  | cons x names ih =>
    rw [List.map_cons, List.mem_cons, not_or] at h
    exact (ih h.2 _).trans (locate_bind kind (Ne.symm h.1))

end Env

/-- What does nothing declares nothing for what follows. -/
theorem Statement.envAfter_of_not_isExecutable {s : Statement} (h : s.isExecutable = false)
    (isBranch : Bool) (Γ : Env) : s.envAfter isBranch Γ = Γ := by
  cases s with
  | comment | importSkill | agent | block => rfl
  | _ => cases h

mutual

/-- The names that a statement introduces among those of its scope. An assignment takes a name as it
is, if it is there. -/
def Statement.introduces : Statement → List String
  | .binding _ ⟨name, _, _⟩ => [name.val]
  | .action a => (a.resultName?.map Located.val).toList
  | .parallel ⟨_, _, _, _, body, _⟩ => bodyIntroduces body
  | _ => []

/-- The names that statements introduce among those of their scope. -/
def bodyIntroduces : List Statement → List String
  | [] => []
  | s :: body => s.introduces ++ bodyIntroduces body

end

mutual

/-- What a name stands for does not change with a statement that does not introduce it. -/
theorem Statement.locate_envAfter (isBranch : Bool) {Γ : Env} {name : String}
    (bound : (Γ.locate name).isSome = true) :
    (s : Statement) → name ∉ s.introduces → (s.envAfter isBranch Γ).locate name = Γ.locate name
  | .binding _ ⟨_, _, _⟩, h => Env.locate_bind _ (List.ne_of_not_mem_cons h).symm
  | .assignment ⟨x, _, _⟩, _ => by
    rw [Statement.envAfter]
    split
    · next new =>
      apply Env.locate_bind
      rintro rfl
      rw [Env.isSome_locate] at bound
      simp [Option.isSome_iff_ne_none.1 bound] at new
    · rfl
  | .action (.session s), h => by
    rw [Statement.envAfter]
    split
    · next x named =>
      apply Env.locate_bind
      rintro rfl
      exact h (by simp [Statement.introduces, Action.resultName?, named])
    · rfl
  | .parallel ⟨_, _, _, _, body, _⟩, h => locate_bodyEnvAfter true bound body h
  | .comment _, _ | .importSkill _, _ | .agent _, _ | .block _, _ | .repeated _, _ | .forEach _, _
  | .loop _, _ | .attempt _, _ | .throw _, _ | .choice _, _ | .conditional _, _
  | .action (.pipe _), _ | .action (.doBlock _), _ | .action (.invoke _), _ => rfl

private theorem locate_bodyEnvAfter (isBranch : Bool) {Γ : Env} {name : String}
    (bound : (Γ.locate name).isSome = true) :
    (body : List Statement) → name ∉ bodyIntroduces body →
      (bodyEnvAfter isBranch Γ body).locate name = Γ.locate name
  | [], _ => rfl
  | s :: body, h => by
    obtain ⟨first, rest⟩ := not_or.1 (mt List.mem_append.2 h)
    have kept := s.locate_envAfter isBranch bound first
    rw [bodyEnvAfter, locate_bodyEnvAfter isBranch (kept ▸ bound) body rest, kept]

end

/-! ## Sessions at their places -/

/-- Names that are handed down. -/
structure Given where
  /-- The names, each with the binding that it stands for where it comes from. -/
  names : List (String × Option (Nat × Declaration)) := []
  /-- The names that have been declared on the way down. -/
  declared : List String := []

namespace Given

/-- What has met declarations on its way down. -/
def past (given : Given) (names : List String) : Given :=
  { given with declared := given.declared ++ names }

/-- Whether none of the names that are handed down has been declared on the way. -/
def Intact (given : Given) : Prop := ∀ g ∈ given.names, g.1 ∉ given.declared

instance : DecidablePred Intact :=
  fun given ↦ inferInstanceAs (Decidable (∀ g ∈ given.names, g.1 ∉ given.declared))

end Given

/-- The names of a result, to be handed down. -/
def Env.give (Γ : Env) (names : List String) : Given where
  names := names.map fun name ↦ (name, Γ.locate name)

/-- A session at its place in a program. -/
structure Site where
  session : Session
  /-- What names mean at its place. -/
  env : Env
  /-- What is handed down to it. -/
  given : Given

/-- Whether the context of a session consists of the names that are handed down to it, and these
stand at its place for the bindings that they stood for where they come from. -/
structure Site.Resolves (site : Site) : Prop where
  names : site.session.context.names.map Located.val = site.given.names.map Prod.fst
  bindings : ∀ g ∈ site.given.names, g.2.isSome = true ∧ site.env.locate g.1 = g.2

instance (site : Site) : Decidable site.Resolves :=
  decidable_of_iff
    (site.session.context.names.map Located.val = site.given.names.map Prod.fst
      ∧ ∀ g ∈ site.given.names, g.2.isSome = true ∧ site.env.locate g.1 = g.2)
    ⟨fun ⟨names, bindings⟩ ↦ ⟨names, bindings⟩, fun h ↦ ⟨h.names, h.bindings⟩⟩

mutual

/-- The sessions in a statement. -/
def Statement.sites (Γ : Env) (given : Given) : Statement → List Site
  | .comment _ | .importSkill _ | .agent _ | .throw _ => []
  | .block ⟨_, params, body, _⟩ => bodySites (Γ.enter .parameter params) {} body
  | .binding _ ⟨_, value, _⟩ => value.sites Γ given
  | .assignment ⟨_, value, _⟩ => value.sites Γ given
  | .action a => a.sites Γ given
  | .parallel ⟨_, _, _, _, body, _⟩ => branchSites Γ given body
  | .repeated ⟨_, index, body, _⟩ =>
    let names := (index.map AsBinding.name).toList
    bodySites (Γ.enter .bodyLocal names) (given.past (names.map Located.val)) body
  | .forEach ⟨item, index, collection, _, _, _, body, _⟩ =>
    let names := item :: index.toList
    collection.sites Γ given
      ++ bodySites (Γ.enter .bodyLocal names) (given.past (names.map Located.val)) body
  | .loop ⟨_, _, index, _, body, _⟩ =>
    let names := (index.map AsBinding.name).toList
    bodySites (Γ.enter .bodyLocal names) (given.past (names.map Located.val)) body
  | .attempt ⟨body, handler, cleanup, _⟩ =>
    bodySites (Γ.enter .bodyLocal []) given body ++ handlerSites Γ given handler
      ++ clauseSites Γ given cleanup
  | .choice ⟨_, options, _⟩ => optionSites Γ given options
  | .conditional ⟨branches, otherwise, _⟩ =>
    conditionSites Γ given branches ++ clauseSites Γ given otherwise

/-- The sessions in statements in order, each of which hands its own result on. -/
def bodySites (Γ : Env) (given : Given) : List Statement → List Site
  | [] => []
  | s :: body =>
    let after := s.envAfter false Γ
    s.sites Γ given
      ++ bodySites after (if s.isExecutable then after.give (Check.resultNames s) else given) body

/-- The sessions in the branches of a parallel block, which are all given the same. -/
def branchSites (Γ : Env) (given : Given) : List Statement → List Site
  | [] => []
  | s :: body =>
    s.sites Γ given ++ branchSites (s.envAfter true Γ) (given.past s.introduces) body

/-- The sessions in a handler. -/
def handlerSites (Γ : Env) (given : Given) : Option Handler → List Site
  | none => []
  | some ⟨error, body, _⟩ =>
    let names := (error.map AsBinding.name).toList
    bodySites (Γ.enter .bodyLocal names) (given.past (names.map Located.val)) body

/-- The sessions in a clause that has a body only. -/
def clauseSites (Γ : Env) (given : Given) : Option Body → List Site
  | none => []
  | some ⟨body, _⟩ => bodySites (Γ.enter .bodyLocal []) given body

/-- The sessions in the options of a choice. -/
def optionSites (Γ : Env) (given : Given) : List ChoiceOption → List Site
  | [] => []
  | ⟨_, body, _⟩ :: options =>
    bodySites (Γ.enter .bodyLocal []) given body ++ optionSites Γ given options

/-- The sessions in conditional branches. -/
def conditionSites (Γ : Env) (given : Given) : List Branch → List Site
  | [] => []
  | ⟨_, _, body, _⟩ :: branches =>
    bodySites (Γ.enter .bodyLocal []) given body ++ conditionSites Γ given branches

/-- The sessions in an action. -/
def Action.sites (Γ : Env) (given : Given) : Action → List Site
  | .session s => [⟨s, Γ, given⟩]
  | .pipe ⟨input, operations, _⟩ => input.sites Γ given ++ operationSites Γ operations
  | .doBlock ⟨body, _⟩ => bodySites (Γ.enter .bodyLocal []) given body
  | .invoke ⟨_, args, _⟩ => valueSites Γ given args

/-- The sessions in pipe operations, each of which hands the names that it introduces to its
body. -/
def operationSites (Γ : Env) : List Operation → List Site
  | [] => []
  | ⟨operator, item, accumulator, body, span⟩ :: operations =>
    let header : Operation := ⟨operator, item, accumulator, [], span⟩
    let inside := Γ.enter .bodyLocal header.names
    bodySites inside (inside.give (header.names.map Located.val)) body ++ operationSites Γ
      operations

/-- The sessions in a value. -/
def Expr.sites (Γ : Env) (given : Given) : Expr → List Site
  | .action a => a.sites Γ given
  | .array ⟨items, _⟩ => valueSites Γ given items
  | .object ⟨entries, _⟩ => entrySites Γ given entries
  | .string _ | .number _ | .ident _ | .discretion _ => []

/-- The sessions in values. -/
def valueSites (Γ : Env) (given : Given) : List Expr → List Site
  | [] => []
  | e :: es => e.sites Γ given ++ valueSites Γ given es

/-- The sessions in the entries of an object. -/
def entrySites (Γ : Env) (given : Given) : List Entry → List Site
  | [] => []
  | ⟨_, some value⟩ :: entries => value.sites Γ given ++ entrySites Γ given entries
  | ⟨_, none⟩ :: entries => entrySites Γ given entries

end

/-- The sessions of a program in order, each at its place. -/
def Program.sites (p : Program) : List Site := bodySites [Env.emptyScope] {} p.statements

/-! ## Comments -/

/-- Past a statement without a result, what is handed down stays. -/
theorem Given.past_nil (given : Given) : given.past [] = given := by
  rw [past, List.append_nil]

private theorem Statement.boundName?_withoutComments (s : Statement) :
    s.withoutComments.boundName? = s.boundName? := by
  cases s with
  | action a => cases a <;> rfl
  | _ => rfl

/-- The results of branches have the same names without the comments between them. -/
theorem filterMap_boundName_withoutComments (body : List Statement) :
    (bodyWithoutComments body).filterMap Statement.boundName?
      = body.filterMap Statement.boundName? := by
  induction body with
  | nil => rfl
  | cons s body ih =>
    rw [bodyWithoutComments]
    split
    · next isComment =>
      cases s with
      | comment c => exact ih
      | _ => cases isComment
    · rw [List.filterMap_cons, List.filterMap_cons, s.boundName?_withoutComments, ih]

private theorem Check.resultNames_withoutComments (s : Statement) :
    resultNames s.withoutComments = resultNames s := by
  cases s with
  | parallel p =>
    exact congrArg (List.map Located.val) (filterMap_boundName_withoutComments p.body)
  | action a => cases a <;> rfl
  | _ => rfl

/-- A statement without its comments runs if it does with them. -/
theorem Statement.isExecutable_withoutComments (s : Statement) :
    s.withoutComments.isExecutable = s.isExecutable := by
  cases s <;> rfl

mutual

private theorem Statement.introduces_withoutComments :
    (s : Statement) → s.withoutComments.introduces = s.introduces
  | .parallel ⟨_, _, _, _, body, _⟩ => bodyIntroduces_withoutComments body
  | .comment _ | .importSkill _ | .agent _ | .block _ | .binding _ _ | .assignment _ | .repeated _
  | .forEach _ | .loop _ | .attempt _ | .throw _ | .choice _ | .conditional _ => rfl
  | .action (.session _) | .action (.pipe _) | .action (.doBlock _) | .action (.invoke _) => rfl

private theorem bodyIntroduces_withoutComments :
    (body : List Statement) → bodyIntroduces (bodyWithoutComments body) = bodyIntroduces body
  | [] => rfl
  | s :: body => by
    rw [bodyWithoutComments]
    split
    · next isComment =>
      cases s with
      | comment c => exact bodyIntroduces_withoutComments body
      | _ => cases isComment
    · rw [bodyIntroduces, bodyIntroduces, s.introduces_withoutComments,
        bodyIntroduces_withoutComments body]

end

mutual

private theorem Statement.sites_withoutComments (Γ : Env) (given : Given) :
    (s : Statement) → s.withoutComments.sites Γ given = s.sites Γ given
  | .comment _ | .importSkill _ | .agent _ | .throw _ => rfl
  | .block ⟨_, _, body, _⟩ => bodySites_withoutComments _ _ body
  | .binding _ ⟨_, value, _⟩ => value.sites_withoutComments Γ given
  | .assignment ⟨_, value, _⟩ => value.sites_withoutComments Γ given
  | .action a => a.sites_withoutComments Γ given
  | .parallel ⟨_, _, _, _, body, _⟩ => branchSites_withoutComments Γ given body
  | .repeated ⟨_, _, body, _⟩ => bodySites_withoutComments _ _ body
  | .forEach ⟨_, _, _, _, _, _, body, _⟩ =>
    congrArg (_ ++ ·) (bodySites_withoutComments _ _ body)
  | .loop ⟨_, _, _, _, body, _⟩ => bodySites_withoutComments _ _ body
  | .attempt ⟨body, handler, cleanup, _⟩ => by
    simp only [Statement.withoutComments, Statement.sites, bodySites_withoutComments _ _ body,
      handlerSites_withoutComments Γ given handler, clauseSites_withoutComments Γ given cleanup]
  | .choice ⟨_, options, _⟩ => optionSites_withoutComments Γ given options
  | .conditional ⟨branches, otherwise, _⟩ => by
    simp only [Statement.withoutComments, Statement.sites,
      conditionSites_withoutComments Γ given branches,
        clauseSites_withoutComments Γ given otherwise]

/-- The sessions of a body stand where they stand in the body without its comments. -/
theorem bodySites_withoutComments (Γ : Env) (given : Given) :
    (body : List Statement) → bodySites Γ given (bodyWithoutComments body) = bodySites Γ given body
  | [] => rfl
  | s :: body => by
    rw [bodyWithoutComments]
    split
    · next isComment =>
      cases s with
      | comment c => exact bodySites_withoutComments Γ given body
      | _ => cases isComment
    · simp only [bodySites, s.sites_withoutComments, s.envAfter_withoutComments,
        s.isExecutable_withoutComments, Check.resultNames_withoutComments,
        bodySites_withoutComments _ _ body]

private theorem branchSites_withoutComments (Γ : Env) (given : Given) :
    (body : List Statement) → branchSites Γ given
    (bodyWithoutComments body) = branchSites Γ given body
  | [] => rfl
  | s :: body => by
    rw [bodyWithoutComments]
    split
    · next isComment =>
      cases s with
      | comment c =>
        have untouched : given.past (Statement.comment c).introduces = given := given.past_nil
        rw [branchSites_withoutComments Γ given body, branchSites, untouched]
        rfl
      | _ => cases isComment
    · rw [branchSites, branchSites, s.sites_withoutComments, s.envAfter_withoutComments,
        s.introduces_withoutComments, branchSites_withoutComments _ _ body]

private theorem handlerSites_withoutComments (Γ : Env) (given : Given) :
    (handler : Option Handler) →
      handlerSites Γ given (handlerWithoutComments handler) = handlerSites Γ given handler
  | none => rfl
  | some ⟨_, body, _⟩ => bodySites_withoutComments _ _ body

private theorem clauseSites_withoutComments (Γ : Env) (given : Given) :
    (clause : Option Body) →
      clauseSites Γ given (clauseWithoutComments clause) = clauseSites Γ given clause
  | none => rfl
  | some ⟨body, _⟩ => bodySites_withoutComments _ _ body

private theorem optionSites_withoutComments (Γ : Env) (given : Given) :
    (options : List ChoiceOption) →
      optionSites Γ given (optionsWithoutComments options) = optionSites Γ given options
  | [] => rfl
  | ⟨_, body, _⟩ :: options => by
    rw [optionsWithoutComments, optionSites, optionSites, bodySites_withoutComments _ _ body,
      optionSites_withoutComments Γ given options]

private theorem conditionSites_withoutComments (Γ : Env) (given : Given) :
    (branches : List Branch) →
      conditionSites Γ given (branchesWithoutComments branches) = conditionSites Γ given branches
  | [] => rfl
  | ⟨_, _, body, _⟩ :: branches => by
    rw [branchesWithoutComments, conditionSites, conditionSites, bodySites_withoutComments _ _ body,
      conditionSites_withoutComments Γ given branches]

private theorem Action.sites_withoutComments (Γ : Env) (given : Given) :
    (a : Action) → a.withoutComments.sites Γ given = a.sites Γ given
  | .session _ => rfl
  | .pipe ⟨input, operations, _⟩ => by
    rw [Action.withoutComments, Action.sites, Action.sites, input.sites_withoutComments,
      operationSites_withoutComments Γ operations]
  | .doBlock ⟨body, _⟩ => bodySites_withoutComments _ _ body
  | .invoke ⟨_, args, _⟩ => valueSites_withoutComments Γ given args

private theorem operationSites_withoutComments (Γ : Env) :
    (operations : List Operation) →
      operationSites Γ (operationsWithoutComments operations) = operationSites Γ operations
  | [] => rfl
  | ⟨_, _, _, body, _⟩ :: operations => by
    rw [operationsWithoutComments, operationSites, operationSites,
      bodySites_withoutComments _ _ body, operationSites_withoutComments Γ operations]

private theorem Expr.sites_withoutComments (Γ : Env) (given : Given) :
    (e : Expr) → e.withoutComments.sites Γ given = e.sites Γ given
  | .action a => a.sites_withoutComments Γ given
  | .array ⟨items, _⟩ => valueSites_withoutComments Γ given items
  | .object ⟨entries, _⟩ => entrySites_withoutComments Γ given entries
  | .string _ | .number _ | .ident _ | .discretion _ => rfl

private theorem valueSites_withoutComments (Γ : Env) (given : Given) :
    (es : List Expr) → valueSites Γ given (valuesWithoutComments es) = valueSites Γ given es
  | [] => rfl
  | e :: es => by
    rw [valuesWithoutComments, valueSites, valueSites, e.sites_withoutComments,
      valueSites_withoutComments Γ given es]

private theorem entrySites_withoutComments (Γ : Env) (given : Given) :
    (entries : List Entry) →
      entrySites Γ given (entriesWithoutComments entries) = entrySites Γ given entries
  | [] => rfl
  | ⟨_, some value⟩ :: entries => by
    rw [entriesWithoutComments, entrySites, entrySites, value.sites_withoutComments,
      entrySites_withoutComments Γ given entries]
  | ⟨_, none⟩ :: entries => entrySites_withoutComments Γ given entries

end

/-- The sessions of a program stand where they stand in the program without its comments. -/
theorem Program.sites_withoutComments (p : Program) : p.withoutComments.sites = p.sites :=
  bodySites_withoutComments _ _ p.statements

end ProseLang
