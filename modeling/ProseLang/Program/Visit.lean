import ProseLang.Program.Tree

/-!
# The parts of a program in order

`visits` lists the parts of a program in the order of the text, each before the parts within it. A
predicate on parts says which of them to look into, so that each analysis sees as much of the
program as it is about.
-/

namespace ProseLang

/-- A part of a program (`Visitor`). -/
inductive Visit
  | statement (s : Statement)
  /-- The end of the statement begun last and not ended yet. -/
  | statementEnd
  | action (a : Action)
  | operation (o : Operation)
  | property (p : Property)
  /-- A value that is not an action. -/
  | value (e : Expr)
  | context (c : Context)
  | string (s : StringLit)
  | discretion (d : Discretion)
  /-- A name in the place of a value. -/
  | reference (name : Ident)

/-- A part followed by what is within it, if one is to look there. -/
@[inline] def Visit.opened (inside : Visit → Bool) (v : Visit) (within : List Visit) : List Visit :=
  v :: if inside v then within else []

/-- The string, if there is one. -/
def Visit.strings (s : Option StringLit) : List Visit := (s.map Visit.string).toList

mutual

/-- The parts within a statement (`walk_statement`). -/
def Statement.visits (inside : Visit → Bool) : Statement → List Visit
  | .comment _ => []
  | .importSkill i => [.string i.skill, .string i.source]
  | .agent ⟨_, _, prompt, _, permissions, properties, _, _⟩ =>
    Visit.strings prompt ++ permissionVisits inside permissions ++ propertyVisits inside properties
  | .block ⟨_, _, body, _⟩ => bodyVisits inside body
  | .binding _ ⟨_, value, _⟩ => value.visits inside
  | .assignment ⟨_, value, _⟩ => value.visits inside
  | .action a => Visit.opened inside (.action a) (a.visits inside)
  | .parallel ⟨_, _, _, _, body, _⟩ => bodyVisits inside body
  | .repeated ⟨_, _, body, _⟩ => bodyVisits inside body
  | .forEach ⟨_, _, collection, _, _, _, body, _⟩ =>
    collection.visits inside ++ bodyVisits inside body
  | .loop ⟨condition, _, _, _, body, _⟩ =>
    (condition.map fun c ↦ Visit.discretion c.discretion).toList ++ bodyVisits inside body
  | .attempt ⟨body, handler, cleanup, _⟩ =>
    bodyVisits inside body ++ handlerVisits inside handler ++ clauseVisits inside cleanup
  | .throw t => Visit.strings t.message
  | .choice ⟨criteria, options, _⟩ => .discretion criteria :: optionVisits inside options
  | .conditional ⟨branches, otherwise, _⟩ =>
    branchVisits inside branches ++ clauseVisits inside otherwise

/-- The statements of a body and what is within them (`walk_body`). -/
def bodyVisits (inside : Visit → Bool) : List Statement → List Visit
  | [] => []
  | s :: body =>
    Visit.opened inside (.statement s) (s.visits inside) ++ .statementEnd :: bodyVisits inside body

/-- What is within a handler. -/
def handlerVisits (inside : Visit → Bool) : Option Handler → List Visit
  | none => []
  | some ⟨_, body, _⟩ => bodyVisits inside body

/-- What is within a clause that has a body only. -/
def clauseVisits (inside : Visit → Bool) : Option Body → List Visit
  | none => []
  | some ⟨body, _⟩ => bodyVisits inside body

/-- What is within the options of a choice. -/
def optionVisits (inside : Visit → Bool) : List ChoiceOption → List Visit
  | [] => []
  | ⟨label, body, _⟩ :: options =>
    .string label :: bodyVisits inside body ++ optionVisits inside options

/-- What is within conditional branches. -/
def branchVisits (inside : Visit → Bool) : List Branch → List Visit
  | [] => []
  | ⟨_, condition, body, _⟩ :: branches =>
    .discretion condition :: bodyVisits inside body ++ branchVisits inside branches

/-- The parts within an action. -/
def Action.visits (inside : Visit → Bool) : Action → List Visit
  | .session ⟨_, prompt, _, _, _, context, _, _, properties, _, _, _⟩ =>
    Visit.strings prompt ++ .context context :: propertyVisits inside properties
  | .pipe ⟨input, operations, _⟩ => input.visits inside ++ operationVisits inside operations
  | .doBlock ⟨body, _⟩ => bodyVisits inside body
  | .invoke ⟨_, args, _⟩ => valueVisits inside args

/-- Pipe operations and what is within them. -/
def operationVisits (inside : Visit → Bool) : List Operation → List Visit
  | [] => []
  | ⟨operator, item, accumulator, body, span⟩ :: operations =>
    Visit.opened inside (.operation ⟨operator, item, accumulator, body, span⟩)
      (bodyVisits inside body) ++ operationVisits inside operations

/-- A value and what is within it (`walk_expr`). -/
def Expr.visits (inside : Visit → Bool) : Expr → List Visit
  | .action a => Visit.opened inside (.action a) (a.visits inside)
  | .string s => [.value (.string s), .string s]
  | .number n => [.value (.number n)]
  | .ident name => [.value (.ident name), .reference name]
  | .array ⟨items, span⟩ => .value (.array ⟨items, span⟩) :: valueVisits inside items
  | .object ⟨entries, span⟩ => .value (.object ⟨entries, span⟩) :: entryVisits inside entries
  | .discretion d => [.value (.discretion d), .discretion d]

/-- Values and what is within them. -/
def valueVisits (inside : Visit → Bool) : List Expr → List Visit
  | [] => []
  | e :: es => e.visits inside ++ valueVisits inside es

/-- What is within the entries of an object. A key alone is a reference. -/
def entryVisits (inside : Visit → Bool) : List Entry → List Visit
  | [] => []
  | ⟨_, some value⟩ :: entries => value.visits inside ++ entryVisits inside entries
  | ⟨key, none⟩ :: entries => .reference key :: entryVisits inside entries

/-- Properties and what is within them (`walk_property`). -/
def propertyVisits (inside : Visit → Bool) : List Property → List Visit
  | [] => []
  | ⟨key, value, span⟩ :: properties =>
    Visit.opened inside (.property ⟨key, value, span⟩) (value.visits inside)
      ++ propertyVisits inside properties

/-- What is within the permissions of an agent. -/
def permissionVisits (inside : Visit → Bool) : Option (List Property) → List Visit
  | none => []
  | some properties => propertyVisits inside properties

/-- What is within the value of a property. -/
def PropertyValue.visits (inside : Visit → Bool) : PropertyValue → List Visit
  | .expr e => e.visits inside
  | .context c => [.context c]
  | .nested properties => propertyVisits inside properties

end

/-- Every part of a program, in order (`walk_program`). -/
def Program.visits (p : Program) : List Visit := bodyVisits (fun _ ↦ true) p.statements

end ProseLang
