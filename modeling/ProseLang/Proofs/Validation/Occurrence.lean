import ProseLang.Program.Tree
import ProseLang.Validation.Issue
import ProseLang.Validation.Scope

/-!
# Lexical scoping

What a name means is told by the text before it. Every body opens a scope with the names that its
construct introduces, except for the body of a parallel block, whose branches stand in the scope
around it. A declaration holds from its end on, and the first one of a name in a scope is kept.

An environment (`Env`) is what names mean at a point of a program. `Statement.envAfter` tells how
a statement changes it for those that follow, and `Program.occurrences` lists the names that a
program uses and assigns, each with the environment at its place. Nothing here depends on how a
program is checked.
-/

namespace ProseLang

/-- What introduces a name, and where. -/
structure Declaration where
  kind : SymbolKind
  span : Span
deriving DecidableEq, Repr

/-- What names mean at a point of a program: the declarations of each scope around it, the
innermost scope first. -/
abbrev Env := List (String → Option Declaration)

namespace Env

/-- A scope without names. -/
def emptyScope : String → Option Declaration := fun _ ↦ none

/-- The innermost declaration of a name. -/
def resolve (Γ : Env) (name : String) : Option Declaration := Γ.findSome? fun scope ↦ scope name

/-- A name means what it does in the innermost scope, or else outside. -/
theorem resolve_cons (scope : String → Option Declaration) (Γ : Env) (name : String) :
    resolve (scope :: Γ) name = (scope name).or (Γ.resolve name) := by
  rw [resolve, List.findSome?_cons]
  cases scope name <;> rfl

/-- The innermost scope first. -/
theorem resolve_eq (Γ : Env) (name : String) :
    Γ.resolve name = (Γ.headD emptyScope name).or (resolve Γ.tail name) := by
  cases Γ with
  | nil => rfl
  | cons scope Γ => exact resolve_cons scope Γ name

/-- A scope with one more name; a name that it has already keeps its declaration. -/
def extend (scope : String → Option Declaration) (name : Ident) (kind : SymbolKind) :
    String → Option Declaration := fun other ↦
  (scope other).or (if name.val = other then some ⟨kind, name.span⟩ else none)

/-- One more name in the innermost scope. -/
def bind (Γ : Env) (name : Ident) (kind : SymbolKind) : Env :=
  extend (Γ.headD emptyScope) name kind :: Γ.tail

/-- A new scope that starts with some names. -/
def enter (Γ : Env) (kind : SymbolKind) (names : List Ident) : Env :=
  names.foldl (fun Γ name ↦ Γ.bind name kind) (emptyScope :: Γ)

end Env

/-- The names that an operation introduces for its body, written or not. -/
def OperationOf.names (o : Operation) : List Ident :=
  let item := o.item.getD ⟨OperationOf.defaultItem, o.operator.span⟩
  if o.operator.val = .reduce then
    [o.accumulator.getD ⟨OperationOf.defaultAccumulator, o.operator.span⟩, item]
  else [item]

/-- What a declaration introduces. -/
def BindingKind.symbolKind : BindingKind → SymbolKind
  | .variable => .variable
  | .constant => .constant

mutual

/-- What names mean after a statement; `isBranch` says that it is a branch of a parallel block. -/
def Statement.envAfter (isBranch : Bool) (Γ : Env) : Statement → Env
  | .binding kind ⟨name, _, _⟩ => Γ.bind name kind.symbolKind
  | .assignment ⟨name, _, _⟩ =>
    if isBranch && (Γ.resolve name.val).isNone then Γ.bind name .branch else Γ
  | .action (.session s) =>
    match s.name with
    | some name => Γ.bind name .session
    | none => Γ
  | .parallel ⟨_, _, _, _, body, _⟩ => bodyEnvAfter true Γ body
  | _ => Γ

/-- What names mean after statements. -/
def bodyEnvAfter (isBranch : Bool) (Γ : Env) : List Statement → Env
  | [] => Γ
  | s :: body => bodyEnvAfter isBranch (s.envAfter isBranch Γ) body

end

/-- A name in a program that has to mean something. -/
inductive Occurrence
  | use (use : NameUse) (name : Ident)
  | assign (name : Ident) (span : Span) (isBranch : Bool)
deriving DecidableEq, Repr

/-- The names in a string. -/
def StringLit.occurrences (Γ : Env) (s : StringLit) : List (Env × Occurrence) :=
  s.interpolations.map fun name ↦ (Γ, .use .interpolation name)

/-- The names in a session. Properties that sessions do not have are left out. -/
def SessionOf.occurrences (Γ : Env) (s : Session) : List (Env × Occurrence) :=
  s.prompt.toList.flatMap (StringLit.occurrences Γ)
    ++ s.context.names.map fun name ↦ (Γ, .use .context name)

mutual

/-- The names in a statement, in the order of the text. Those in the definition of an agent and in
the import of a skill are left out. -/
def Statement.occurrences (isBranch : Bool) (Γ : Env) : Statement → List (Env × Occurrence)
  | .comment _ | .importSkill _ | .agent _ => []
  | .block ⟨_, params, body, _⟩ => bodyOccurrences false (Γ.enter .parameter params) body
  | .binding _ ⟨_, value, _⟩ => value.occurrences Γ
  | .assignment ⟨name, value, span⟩ => value.occurrences Γ ++ [(Γ, .assign name span isBranch)]
  | .action a => a.occurrences Γ
  | .parallel ⟨_, _, _, _, body, _⟩ => bodyOccurrences true Γ body
  | .repeated ⟨_, index, body, _⟩ =>
    bodyOccurrences false (Γ.enter .bodyLocal (index.map AsBinding.name).toList) body
  | .forEach ⟨item, index, collection, _, _, _, body, _⟩ =>
    collection.occurrences Γ
      ++ bodyOccurrences false (Γ.enter .bodyLocal (item :: index.toList)) body
  | .loop ⟨_, _, index, _, body, _⟩ =>
    bodyOccurrences false (Γ.enter .bodyLocal (index.map AsBinding.name).toList) body
  | .attempt ⟨body, handler, cleanup, _⟩ =>
    bodyOccurrences false (Γ.enter .bodyLocal []) body ++ handlerOccurrences Γ handler
      ++ clauseOccurrences Γ cleanup
  | .throw t => t.message.toList.flatMap (StringLit.occurrences Γ)
  | .choice ⟨_, options, _⟩ => optionOccurrences Γ options
  | .conditional ⟨branches, otherwise, _⟩ =>
    branchOccurrences Γ branches ++ clauseOccurrences Γ otherwise

/-- The names in statements, each seeing what the ones before it declare. -/
def bodyOccurrences (isBranch : Bool) (Γ : Env) : List Statement → List (Env × Occurrence)
  | [] => []
  | s :: body => s.occurrences isBranch Γ ++ bodyOccurrences isBranch (s.envAfter isBranch Γ) body

/-- The names in a handler. -/
def handlerOccurrences (Γ : Env) : Option Handler → List (Env × Occurrence)
  | none => []
  | some ⟨error, body, _⟩ =>
    bodyOccurrences false (Γ.enter .bodyLocal (error.map AsBinding.name).toList) body

/-- The names in a clause that has a body only. -/
def clauseOccurrences (Γ : Env) : Option Body → List (Env × Occurrence)
  | none => []
  | some ⟨body, _⟩ => bodyOccurrences false (Γ.enter .bodyLocal []) body

/-- The names in the options of a choice. -/
def optionOccurrences (Γ : Env) : List ChoiceOption → List (Env × Occurrence)
  | [] => []
  | ⟨label, body, _⟩ :: options =>
    label.occurrences Γ ++ bodyOccurrences false (Γ.enter .bodyLocal []) body
      ++ optionOccurrences Γ options

/-- The names in conditional branches. -/
def branchOccurrences (Γ : Env) : List Branch → List (Env × Occurrence)
  | [] => []
  | ⟨_, _, body, _⟩ :: branches =>
    bodyOccurrences false (Γ.enter .bodyLocal []) body ++ branchOccurrences Γ branches

/-- The names in an action. -/
def Action.occurrences (Γ : Env) : Action → List (Env × Occurrence)
  | .session s => SessionOf.occurrences Γ s
  | .pipe ⟨input, operations, _⟩ => input.occurrences Γ ++ operationOccurrences Γ operations
  | .doBlock ⟨body, _⟩ => bodyOccurrences false (Γ.enter .bodyLocal []) body
  | .invoke ⟨_, args, _⟩ => valueOccurrences Γ args

/-- The names in pipe operations. -/
def operationOccurrences (Γ : Env) : List Operation → List (Env × Occurrence)
  | [] => []
  | ⟨operator, item, accumulator, body, span⟩ :: operations =>
    bodyOccurrences false
        (Γ.enter .bodyLocal (OperationOf.names ⟨operator, item, accumulator, body, span⟩)) body
      ++ operationOccurrences Γ operations

/-- The names in a value. -/
def Expr.occurrences (Γ : Env) : Expr → List (Env × Occurrence)
  | .action a => a.occurrences Γ
  | .string s => s.occurrences Γ
  | .number _ | .discretion _ => []
  | .ident name => [(Γ, .use .value name)]
  | .array ⟨items, _⟩ => valueOccurrences Γ items
  | .object ⟨entries, _⟩ => entryOccurrences Γ entries

/-- The names in values. -/
def valueOccurrences (Γ : Env) : List Expr → List (Env × Occurrence)
  | [] => []
  | e :: es => e.occurrences Γ ++ valueOccurrences Γ es

/-- The names in the entries of an object. A key alone is the use of a name. -/
def entryOccurrences (Γ : Env) : List Entry → List (Env × Occurrence)
  | [] => []
  | ⟨_, some value⟩ :: entries => value.occurrences Γ ++ entryOccurrences Γ entries
  | ⟨key, none⟩ :: entries => (Γ, .use .value key) :: entryOccurrences Γ entries

end

/-- The names in a program, each with what names mean at its place. -/
def Program.occurrences (p : Program) : List (Env × Occurrence) :=
  bodyOccurrences false [Env.emptyScope] p.statements

namespace Occurrence

/-- What there is to say about the use of a name that means nothing. -/
def undefined? : Env × Occurrence → Option Finding
  | (Γ, .use how name) =>
    if (Γ.resolve name.val).isNone then some ⟨.undefinedVariable name.val how, name.span⟩ else none
  | _ => none

/-- What there is to say about an assignment, other than as a branch, to a name that means
nothing. -/
def undeclared? : Env × Occurrence → Option Finding
  | (Γ, .assign name span isBranch) =>
    if !isBranch && (Γ.resolve name.val).isNone then some ⟨.undeclaredAssignment name.val, span⟩
    else none
  | _ => none

/-- What there is to say about an assignment to a constant or to the result of a session. -/
def reassigned? : Env × Occurrence → Option Finding
  | (Γ, .assign name span _) =>
    match Γ.resolve name.val with
    | some ⟨.constant, declared⟩ => some ⟨.constAssignment name.val declared, span⟩
    | some ⟨.session, declared⟩ => some ⟨.sessionAssignment name.val declared, span⟩
    | _ => none
  | _ => none

end Occurrence

namespace Env

variable {Γ : Env}

/-- Leaving a scope leads back to where it was entered. -/
theorem tail_enter (kind : SymbolKind) (names : List Ident) : (Γ.enter kind names).tail = Γ := by
  have each (names : List Ident) (Δ : Env) :
      (names.foldl (fun Γ name ↦ Γ.bind name kind) Δ).tail = Δ.tail := by
    induction names generalizing Δ with
    | nil => rfl
    | cons name names ih => exact ih _
  exact each names _

end Env

mutual

/-- A statement declares names in the innermost scope only. -/
theorem Statement.tail_envAfter (isBranch : Bool) (Γ : Env) :
    (s : Statement) → (s.envAfter isBranch Γ).tail = Γ.tail
  | .binding _ ⟨_, _, _⟩ => rfl
  | .assignment ⟨name, _, _⟩ => by
    rw [Statement.envAfter]
    split <;> rfl
  | .action (.session s) => by
    rw [Statement.envAfter]
    split <;> rfl
  | .parallel ⟨_, _, _, _, body, _⟩ => by
    rw [Statement.envAfter]
    exact tail_bodyEnvAfter true Γ body
  | .comment _ | .importSkill _ | .agent _ | .block _ | .repeated _ | .forEach _ | .loop _
  | .attempt _ | .throw _ | .choice _ | .conditional _ => rfl
  | .action (.pipe _) | .action (.doBlock _) | .action (.invoke _) => rfl

/-- Statements declare names in the innermost scope only. -/
theorem tail_bodyEnvAfter (isBranch : Bool) (Γ : Env) :
    (body : List Statement) → (bodyEnvAfter isBranch Γ body).tail = Γ.tail
  | [] => rfl
  | s :: body => by
    rw [bodyEnvAfter, tail_bodyEnvAfter isBranch _ body, s.tail_envAfter isBranch Γ]

end

end ProseLang
