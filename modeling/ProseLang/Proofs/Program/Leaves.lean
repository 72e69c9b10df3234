import ProseLang.Program.Visit
import ProseLang.Text.Decimal
import ProseLang.Token.Kind

/-!
# Leaves of a program and the tokens that they are read from

`Visit.leaves` are the leaves that a part of a program holds itself, and `Leaf.IsRead` says which
token each of them is read from. Properties of leaves spread over a program as `Statement.Has` and
its siblings; each of them comes with the lemma that takes a construct apart into what it holds.
-/

namespace ProseLang

/-- A part of a program that holds no other part, with its place. -/
inductive Leaf
  | name (x : Ident)
  /-- The key of a property or modifier. -/
  | key (x : Ident)
  /-- A text that is written as a string. -/
  | quoted (x : Located String)
  /-- A model, which is written as a name or as a string. -/
  | model (x : Ident)
  /-- A number in the place of a value. -/
  | numeral (x : Located String)
  /-- A number that counts something. -/
  | count (x : Located Nat)
  | string (s : StringLit)
  | discretion (d : Discretion)
  | comment (c : Comment)
  | keyword (word : Keyword) (span : Span)
  | operator (o : Located PipeOperator)
  | arrow (span : Span)

/-- Where a leaf is written. -/
def Leaf.span : Leaf → Span
  | name x | key x | quoted x | model x | numeral x => x.span
  | count n => n.span
  | string s => s.span
  | discretion d => d.span
  | comment c => c.span
  | operator o => o.span
  | keyword _ span | arrow span => span

/-- Whether a leaf is read from one of some tokens. -/
def Leaf.IsRead (ts : List Token) : Leaf → Prop
  | name x => ⟨.identifier x.val, x.span⟩ ∈ ts
  | key x =>
    ⟨.identifier x.val, x.span⟩ ∈ ts ∨ ∃ word, ⟨.keyword word, x.span⟩ ∈ ts ∧ word.text = x.val
  | quoted x => ∃ literal, ⟨.string literal, x.span⟩ ∈ ts ∧ literal.value = x.val
  | model x =>
    ⟨.identifier x.val, x.span⟩ ∈ ts
      ∨ ∃ literal, ⟨.string literal, x.span⟩ ∈ ts ∧ literal.value = x.val
  | numeral x => ⟨.number x.val, x.span⟩ ∈ ts
  | count x => ∃ digits, ⟨.number digits, x.span⟩ ∈ ts ∧ wholeNumber? digits.toList = some x.val
  | string s => ∃ literal, ⟨.string literal, s.span⟩ ∈ ts ∧ .ofLiteral literal s.span = s
  | discretion d =>
    ∃ literal : DiscretionLiteral, ⟨.discretion literal, d.span⟩ ∈ ts
      ∧ ⟨literal.text, literal.multiline, literal.raw, d.span⟩ = d
  | comment c => ⟨.comment c.text, c.span⟩ ∈ ts
  | keyword word span => ⟨.keyword word, span⟩ ∈ ts
  | operator o => ⟨.identifier o.val.text, o.span⟩ ∈ ts
  | arrow span => ⟨.symbol .arrow, span⟩ ∈ ts

/-- The leaves of the variable that a header may bind. -/
def bindingLeaves : Option AsBinding → List Leaf
  | none => []
  | some b => [.keyword .as_ b.keyword, .name b.name]

/-- The leaves of the words before conditions. -/
@[simp] def conditionWords : List Span → List Leaf
  | [] => []
  | span :: spans => .keyword .if_ span :: spans.map (.keyword .elif)

/-- The leaves that a statement holds itself. -/
@[simp] def Statement.leaves : Statement → List Leaf
  | comment c => [.comment c]
  | importSkill i => [.keyword .from_ i.fromKeyword]
  | agent a =>
    .name a.name :: a.model.toList.map .model ++ a.skills.map .quoted ++ a.keys.map .key
  | block b => .name b.name :: b.params.map .name
  | binding _ b => [.name b.name]
  | assignment a => [.name a.name]
  | action _ | throw _ | choice _ => []
  | parallel p =>
    p.join.toList.map .quoted ++ p.onFail.toList.map .quoted ++ p.count.toList.map .count
      ++ p.keys.map .key
  | repeated r => .count r.count :: bindingLeaves r.index
  | forEach f =>
    .keyword .for_ f.forKeyword :: .keyword .in_ f.inKeyword :: .name f.item
      :: f.index.toList.map .name
  | loop l =>
    l.condition.toList.map (fun c ↦ .keyword c.kind.keyword c.keyword)
      ++ l.maxIterations.toList.map .count ++ bindingLeaves l.index
      ++ l.keys.map .key
  | attempt t => bindingLeaves (t.handler.bind HandlerOf.error)
  | conditional c => conditionWords (c.branches.map BranchOf.keyword)

/-- The leaves that an action holds itself. -/
@[simp] def Action.leaves : Action → List Leaf
  | session s =>
    s.name.toList.map .name ++ s.agent.toList.map .name ++ s.model.toList.map .model
      ++ (s.skills.getD []).map .quoted ++ s.retry.toList.map .count
      ++ s.backoff.toList.map .quoted ++ s.keys.map .key ++ s.arrow.toList.map .arrow
  | invoke i => [.name i.name]
  | pipe _ | doBlock _ => []

/-- The leaves that a part of a program holds itself. -/
@[simp] def Visit.leaves : Visit → List Leaf
  | statement s => s.leaves
  | statementEnd => []
  | action a => a.leaves
  | operation o =>
    .operator o.operator :: o.item.toList.map .name ++ o.accumulator.toList.map .name
  | property p => [.key p.key]
  | value (.number n) => [.numeral n]
  | value (.object o) => o.entries.map fun e ↦ .name e.key
  | value _ => []
  | context c => c.names.map .name
  | string s => [.string s]
  | discretion d => [.discretion d]
  | reference x => [.name x]

/-- Every leaf of a program. -/
def Program.leaves (p : Program) : List Leaf := p.visits.flatMap Visit.leaves

/-- Whether a part has what the grammar asks of it besides its leaves: a conditional has a
condition. -/
@[simp] def Visit.IsWhole : Visit → Prop
  | statement (.conditional c) => c.branches ≠ []
  | _ => True

/-- Whether the leaves that a part holds itself have a property, and the part is whole. -/
def Visit.Has (L : Leaf → Prop) (v : Visit) : Prop := (∀ l ∈ v.leaves, L l) ∧ v.IsWhole

instance : DecidablePred Visit.IsWhole
  | .statement (.conditional ⟨[], _, _⟩) => isFalse fun h ↦ h rfl
  | .statement (.conditional ⟨b :: branches, _, _⟩) => isTrue (List.cons_ne_nil b branches)
  | .statement (.comment _) | .statement (.importSkill _) | .statement (.agent _)
  | .statement (.block _) | .statement (.binding _ _) | .statement (.assignment _)
  | .statement (.action _) | .statement (.parallel _) | .statement (.repeated _)
  | .statement (.forEach _) | .statement (.loop _) | .statement (.attempt _) | .statement (.throw _)
  | .statement (.choice _) | .statementEnd | .action _ | .operation _ | .property _ | .value _
  | .context _ | .string _ | .discretion _ | .reference _ => isTrue trivial

/-- Whether to look into a part: always. -/
abbrev everywhere : Visit → Bool := fun _ ↦ true

section

variable (L : Leaf → Prop)

/-- Whether the leaves of the variable that a header binds have a property. -/
def AsBinding.Has (b : AsBinding) : Prop := L (.keyword .as_ b.keyword) ∧ L (.name b.name)

/-- Whether the leaves of a statement have a property. -/
def Statement.Has (s : Statement) : Prop :=
  (Visit.statement s).Has L ∧ ∀ v ∈ s.visits everywhere, v.Has L

instance [DecidablePred L] (v : Visit) : Decidable (v.Has L) :=
  inferInstanceAs (Decidable ((∀ l ∈ v.leaves, L l) ∧ v.IsWhole))

instance [DecidablePred L] (s : Statement) : Decidable (s.Has L) :=
  inferInstanceAs (Decidable ((Visit.statement s).Has L ∧ ∀ v ∈ s.visits everywhere, v.Has L))

/-- Whether the leaves of some statements have a property. -/
def BodyHas (body : List Statement) : Prop := ∀ s ∈ body, s.Has L

/-- Whether the leaves of an action have a property. -/
def Action.Has (a : Action) : Prop :=
  (Visit.action a).Has L ∧ ∀ v ∈ a.visits everywhere, v.Has L

/-- Whether the leaves of a value have a property. -/
def Expr.Has (e : Expr) : Prop := ∀ v ∈ e.visits everywhere, v.Has L

/-- Whether the leaves of an entry of an object have a property. -/
def EntryOf.Has (e : Entry) : Prop := L (.name e.key) ∧ ∀ value ∈ e.value, value.Has L

/-- Whether the leaves of the value of a property have a property. -/
def PropertyValue.Has (value : PropertyValue) : Prop := ∀ v ∈ value.visits everywhere, v.Has L

/-- Whether the leaves of a property have a property. -/
def PropertyOf.Has (p : Property) : Prop := L (.key p.key) ∧ p.value.Has L

/-- Whether the leaves of a pipe operation have a property. -/
def OperationOf.Has (o : Operation) : Prop := (Visit.operation o).Has L ∧ BodyHas L o.body

/-- Whether the leaves of a session have a property, except for those of its properties. -/
structure SessionOf.Sets (s : Session) : Prop where
  name : ∀ x ∈ s.name, L (.name x)
  prompt : ∀ x ∈ s.prompt, L (.string x)
  agent : ∀ x ∈ s.agent, L (.name x)
  model : ∀ x ∈ s.model, L (.model x)
  skills : ∀ xs ∈ s.skills, ∀ x ∈ xs, L (.quoted x)
  context : ∀ x ∈ s.context.names, L (.name x)
  retry : ∀ x ∈ s.retry, L (.count x)
  backoff : ∀ x ∈ s.backoff, L (.quoted x)
  keys : ∀ x ∈ s.keys, L (.key x)
  arrow : ∀ x ∈ s.arrow, L (.arrow x)

/-- Whether the leaves of a session have a property. -/
structure SessionOf.Has (s : Session) : Prop extends SessionOf.Sets L s where
  properties : ∀ p ∈ s.properties, p.Has L

/-- Whether the leaves of the definition of an agent have a property, except for those of its
properties. -/
structure AgentOf.Sets (a : Agent) : Prop where
  name : L (.name a.name)
  model : ∀ x ∈ a.model, L (.model x)
  prompt : ∀ x ∈ a.prompt, L (.string x)
  skills : ∀ x ∈ a.skills, L (.quoted x)
  keys : ∀ x ∈ a.keys, L (.key x)

/-- Whether the leaves of the definition of an agent have a property. -/
structure AgentOf.Has (a : Agent) : Prop extends AgentOf.Sets L a where
  permissions : ∀ group ∈ a.permissions, ∀ p ∈ group, p.Has L
  properties : ∀ p ∈ a.properties, p.Has L

end

section

variable {L : Leaf → Prop}

/-- A weaker property of the leaves of a statement. -/
theorem Statement.Has.imp {M : Leaf → Prop} (h : ∀ l, L l → M l) {s : Statement} (hs : s.Has L) :
    s.Has M :=
  have part {v : Visit} (hv : v.Has L) : v.Has M := ⟨fun l hl ↦ h l (hv.1 l hl), hv.2⟩
  ⟨part hs.1, fun v hv ↦ part (hs.2 v hv)⟩

/-- The end of a statement has no leaves. -/
@[simp] theorem has_statementEnd : Visit.statementEnd.Has L := ⟨nofun, trivial⟩

/-- A value has its leaves itself, those of other parts aside. -/
theorem has_value {e : Expr} :
    (Visit.value e).Has L ↔ ∀ l ∈ (Visit.value e).leaves, L l := and_iff_left trivial

/-- A string is a leaf. -/
@[simp] theorem has_string {s : StringLit} : (Visit.string s).Has L ↔ L (.string s) := by
  simp [Visit.Has]

/-- A condition in stars is a leaf. -/
@[simp] theorem has_discretion {d : Discretion} :
    (Visit.discretion d).Has L ↔ L (.discretion d) := by
  simp [Visit.Has]

/-- A reference is a leaf. -/
@[simp] theorem has_reference {x : Ident} : (Visit.reference x).Has L ↔ L (.name x) := by
  simp [Visit.Has]

/-- The leaves of a context are its names. -/
@[simp] theorem has_context {c : Context} :
    (Visit.context c).Has L ↔ ∀ x ∈ c.names, L (.name x) := by
  simp [Visit.Has]

/-- The leaf of a property is its key. -/
@[simp] theorem has_property {p : Property} : (Visit.property p).Has L ↔ L (.key p.key) := by
  simp [Visit.Has]

/-- What holds of all parts that are looked into holds of the part and of those within. -/
@[simp] theorem forall_opened {P : Visit → Prop} {v : Visit} {within : List Visit} :
    (∀ w ∈ Visit.opened everywhere v within, P w) ↔ P v ∧ ∀ w ∈ within, P w := by
  simp [Visit.opened]

/-- The leaf of a string that may be there. -/
@[simp] theorem forall_strings {s : Option StringLit} :
    (∀ v ∈ Visit.strings s, v.Has L) ↔ ∀ x ∈ s, L (.string x) := by
  cases s <;> simp [Visit.strings]

/-! ## Lists of parts -/

/-- The leaves of the parts of a body are those of the body. -/
@[simp] theorem forall_bodyVisits (body : List Statement) :
    (∀ v ∈ bodyVisits everywhere body, v.Has L) ↔ BodyHas L body := by
  induction body with
  | nil => simp [bodyVisits, BodyHas]
  | cons s body ih =>
    simp only [bodyVisits, List.forall_mem_append, List.forall_mem_cons, forall_opened, ih,
      has_statementEnd, true_and, BodyHas, Statement.Has]

/-- The leaves of the parts of values are those of the values. -/
@[simp] theorem forall_valueVisits (es : List Expr) :
    (∀ v ∈ valueVisits everywhere es, v.Has L) ↔ ∀ e ∈ es, e.Has L := by
  induction es with
  | nil => simp [valueVisits]
  | cons e es ih =>
    simp only [valueVisits, List.forall_mem_append, List.forall_mem_cons, ih, Expr.Has]

/-- The leaves of the parts of properties are those of the properties. -/
@[simp] theorem forall_propertyVisits (ps : List Property) :
    (∀ v ∈ propertyVisits everywhere ps, v.Has L) ↔ ∀ p ∈ ps, p.Has L := by
  induction ps with
  | nil => simp [propertyVisits]
  | cons p ps ih =>
    simp only [propertyVisits, List.forall_mem_append, List.forall_mem_cons, forall_opened, ih,
      has_property, PropertyOf.Has, PropertyValue.Has]

/-- The leaves of the parts of operations are those of the operations. -/
@[simp] theorem forall_operationVisits (operations : List Operation) :
    (∀ v ∈ operationVisits everywhere operations, v.Has L) ↔ ∀ o ∈ operations, o.Has L := by
  induction operations with
  | nil => simp [operationVisits]
  | cons o operations ih =>
    simp only [operationVisits, List.forall_mem_append, List.forall_mem_cons, forall_opened, ih,
      forall_bodyVisits, OperationOf.Has]

/-- The leaves of the parts of options are those of their labels and bodies. -/
@[simp] theorem forall_optionVisits (options : List ChoiceOption) :
    (∀ v ∈ optionVisits everywhere options, v.Has L)
      ↔ ∀ o ∈ options, L (.string o.label) ∧ BodyHas L o.body := by
  induction options with
  | nil => simp [optionVisits]
  | cons o options ih =>
    simp only [optionVisits, List.cons_append, List.forall_mem_append, List.forall_mem_cons, ih,
      forall_bodyVisits, has_string, and_assoc]

/-- The leaves of the parts of branches are those of their conditions and bodies. -/
@[simp] theorem forall_branchVisits (branches : List Branch) :
    (∀ v ∈ branchVisits everywhere branches, v.Has L)
      ↔ ∀ b ∈ branches, L (.discretion b.condition) ∧ BodyHas L b.body := by
  induction branches with
  | nil => simp [branchVisits]
  | cons b branches ih =>
    simp only [branchVisits, List.cons_append, List.forall_mem_append, List.forall_mem_cons, ih,
      forall_bodyVisits, has_discretion, and_assoc]

/-- The leaves of the parts of a handler are those of its body. -/
@[simp] theorem forall_handlerVisits (h : Option Handler) :
    (∀ v ∈ handlerVisits everywhere h, v.Has L) ↔ ∀ x ∈ h, BodyHas L x.body := by
  cases h <;> simp [handlerVisits]

/-- The leaves of the parts of a clause are those of its body. -/
@[simp] theorem forall_clauseVisits (c : Option Body) :
    (∀ v ∈ clauseVisits everywhere c, v.Has L) ↔ ∀ x ∈ c, BodyHas L x.body := by
  cases c <;> simp [clauseVisits]

/-- The leaves of the parts of permissions are those of the permissions. -/
@[simp] theorem forall_permissionVisits (ps : Option (List Property)) :
    (∀ v ∈ permissionVisits everywhere ps, v.Has L) ↔ ∀ group ∈ ps, ∀ p ∈ group, p.Has L := by
  cases ps <;> simp [permissionVisits]

/-- The keys of an object are leaves of the object. -/
theorem forall_entryVisits (entries : List Entry) :
    ((∀ e ∈ entries, L (.name e.key)) ∧ ∀ v ∈ entryVisits everywhere entries, v.Has L)
      ↔ ∀ e ∈ entries, e.Has L := by
  induction entries with
  | nil => simp [entryVisits]
  | cons e entries ih =>
    rw [List.forall_mem_cons, List.forall_mem_cons, ← ih, EntryOf.Has]
    rcases e with ⟨key, value | value⟩
    · simp only [entryVisits, List.forall_mem_cons, has_reference, Option.mem_def]
      grind
    · simp only [entryVisits, List.forall_mem_append, Option.mem_some_iff, forall_eq', Expr.Has]
      grind

/-! ## Constructs -/

attribute [simp] Statement.visits Action.visits Expr.visits PropertyValue.visits

private theorem has_statement {s : Statement} :
    (Visit.statement s).Has L ↔ (∀ l ∈ s.leaves, L l) ∧ (Visit.statement s).IsWhole := Iff.rfl

private theorem has_action_leaves {a : Action} : (Visit.action a).Has L ↔ ∀ l ∈ a.leaves, L l :=
  and_iff_left trivial

/-- The leaves of a variable that a header may bind. -/
@[simp] theorem forall_bindingLeaves {b : Option AsBinding} :
    (∀ l ∈ bindingLeaves b, L l) ↔ ∀ x ∈ b, x.Has L := by
  cases b <;> simp [bindingLeaves, AsBinding.Has]

/-- The leaf of a comment. -/
theorem has_comment {c : Comment} : (Statement.comment c).Has L ↔ L (.comment c) := by
  simp [Statement.Has, has_statement]

/-- The leaves of an import: its second word, the skill and the source. -/
theorem has_importSkill {i : Import} :
    (Statement.importSkill i).Has L
      ↔ L (.keyword .from_ i.fromKeyword) ∧ L (.string i.skill) ∧ L (.string i.source) := by
  simp [Statement.Has, has_statement]

/-- The leaves of the definition of an agent. -/
theorem has_agent {a : Agent} : (Statement.agent a).Has L ↔ a.Has L := by
  cases a
  simp only [Statement.Has, has_statement, Statement.leaves, Statement.visits, Visit.IsWhole,
    List.forall_mem_append, List.forall_mem_cons, List.forall_mem_map, forall_strings,
    forall_permissionVisits, forall_propertyVisits, Option.mem_toList, and_true, List.cons_append]
  constructor
  · rintro ⟨⟨name, ⟨model, skills⟩, keys⟩, ⟨prompt, permissions⟩, properties⟩
    exact ⟨⟨name, model, prompt, skills, keys⟩, permissions, properties⟩
  · rintro ⟨⟨name, model, prompt, skills, keys⟩, permissions, properties⟩
    exact ⟨⟨name, ⟨model, skills⟩, keys⟩, ⟨prompt, permissions⟩, properties⟩

/-- The leaves of the definition of a block: its name, its parameters and its body. -/
theorem has_block {b : Block} :
    (Statement.block b).Has L
      ↔ (L (.name b.name) ∧ ∀ x ∈ b.params, L (.name x)) ∧ BodyHas L b.body := by
  cases b
  simp [Statement.Has, has_statement]

/-- The leaves of a binding: its name and its value. -/
theorem has_binding {kind : BindingKind} {b : Binding} :
    (Statement.binding kind b).Has L ↔ L (.name b.name) ∧ b.value.Has L := by
  cases b
  simp [Statement.Has, has_statement, Expr.Has]

/-- The leaves of an assignment: its name and its value. -/
theorem has_assignment {a : Binding} :
    (Statement.assignment a).Has L ↔ L (.name a.name) ∧ a.value.Has L := by
  cases a
  simp [Statement.Has, has_statement, Expr.Has]

/-- The leaves of an action as a statement. -/
theorem has_statement_action {a : Action} : (Statement.action a).Has L ↔ a.Has L := by
  simp [Statement.Has, has_statement, Action.Has]

/-- The leaves of a parallel block: its header and its branches. -/
theorem has_parallel {p : Parallel} :
    (Statement.parallel p).Has L
      ↔ ((∀ x ∈ p.join, L (.quoted x)) ∧ (∀ x ∈ p.onFail, L (.quoted x))
        ∧ (∀ x ∈ p.count, L (.count x)) ∧ ∀ x ∈ p.keys, L (.key x)) ∧ BodyHas L p.body := by
  cases p
  simp [Statement.Has, has_statement, or_imp, forall_and, and_assoc]

/-- The leaves of a `repeat`: its header and its body. -/
theorem has_repeated {r : Repeat} :
    (Statement.repeated r).Has L
      ↔ (L (.count r.count) ∧ ∀ b ∈ r.index, b.Has L) ∧ BodyHas L r.body := by
  cases r
  simp [Statement.Has, has_statement]

/-- The leaves of a `for`: its words and names, the collection and the body. -/
theorem has_forEach {f : ForEach} :
    (Statement.forEach f).Has L
      ↔ (L (.keyword .for_ f.forKeyword) ∧ L (.keyword .in_ f.inKeyword) ∧ L (.name f.item)
        ∧ ∀ x ∈ f.index, L (.name x)) ∧ f.collection.Has L ∧ BodyHas L f.body := by
  cases f
  simp [Statement.Has, has_statement, Expr.Has, or_imp, forall_and]

/-- The leaves of a `loop`: its condition, its header and its body. -/
theorem has_loop {l : Loop} :
    (Statement.loop l).Has L
      ↔ (∀ c ∈ l.condition, L (.keyword c.kind.keyword c.keyword) ∧ L (.discretion c.discretion))
        ∧ ((∀ x ∈ l.maxIterations, L (.count x)) ∧ (∀ b ∈ l.index, b.Has L)
          ∧ ∀ x ∈ l.keys, L (.key x)) ∧ BodyHas L l.body := by
  cases l
  simp [Statement.Has, has_statement, or_imp, forall_and]
  grind

/-- The leaves of a `try`: the name of the error, and the three bodies. -/
theorem has_attempt {t : Try} :
    (Statement.attempt t).Has L
      ↔ (∀ h ∈ t.handler, ∀ b ∈ h.error, b.Has L) ∧ BodyHas L t.body
        ∧ (∀ h ∈ t.handler, BodyHas L h.body) ∧ ∀ c ∈ t.cleanup, BodyHas L c.body := by
  rcases t with ⟨body, _ | h, cleanup, span⟩ <;>
    simp [Statement.Has, has_statement, or_imp, forall_and]

/-- The leaf of a `throw` is its message, if it has one. -/
theorem has_throw {t : Throw} : (Statement.throw t).Has L ↔ ∀ m ∈ t.message, L (.string m) := by
  simp [Statement.Has, has_statement]

/-- The leaves of a `choice`: its criteria and its options. -/
theorem has_choice {c : Choice} :
    (Statement.choice c).Has L
      ↔ L (.discretion c.criteria) ∧ ∀ o ∈ c.options, L (.string o.label) ∧ BodyHas L o.body := by
  cases c
  simp [Statement.Has, has_statement]

/-- The leaves of an `if`: the words of its branches, and what is in them and left over. -/
theorem has_conditional {c : Conditional} :
    (Statement.conditional c).Has L
      ↔ ((∀ l ∈ conditionWords (c.branches.map BranchOf.keyword), L l) ∧ c.branches ≠ [])
        ∧ (∀ b ∈ c.branches, L (.discretion b.condition) ∧ BodyHas L b.body)
        ∧ ∀ x ∈ c.otherwise, BodyHas L x.body := by
  cases c
  simp only [Statement.Has, has_statement, Statement.leaves, Statement.visits, Visit.IsWhole,
    List.forall_mem_append, forall_branchVisits, forall_clauseVisits]

/-- The leaves of a session. -/
theorem has_session {s : Session} : (Action.session s).Has L ↔ s.Has L := by
  rcases s with ⟨_, _, _, _, names, _, _, _, _, _, _, _⟩
  simp only [Action.Has, has_action_leaves, Action.leaves, Action.visits, List.forall_mem_append,
    List.forall_mem_cons, List.forall_mem_map, forall_strings, has_context, forall_propertyVisits,
    Option.mem_toList]
  constructor
  · rintro ⟨⟨⟨⟨⟨⟨⟨⟨name, agent⟩, model⟩, skills⟩, retry⟩, backoff⟩, keys⟩, arrow⟩, prompt, context,
      properties⟩
    refine ⟨⟨name, prompt, agent, model, ?_, context, retry, backoff, keys, arrow⟩, properties⟩
    rintro xs rfl
    exact skills
  · rintro ⟨⟨name, prompt, agent, model, skills, context, retry, backoff, keys, arrow⟩, properties⟩
    refine ⟨⟨⟨⟨⟨⟨⟨⟨name, agent⟩, model⟩, ?_⟩, retry⟩, backoff⟩, keys⟩, arrow⟩, prompt, context,
      properties⟩
    intro x hx
    cases given : names with
    | none => simp [given] at hx
    | some xs => exact skills xs given x (by simpa [given] using hx)

/-- The leaves of a pipe: its input and its operations. -/
theorem has_pipe {p : Pipe} :
    (Action.pipe p).Has L ↔ p.input.Has L ∧ ∀ o ∈ p.operations, o.Has L := by
  cases p
  simp [Action.Has, has_action_leaves, Expr.Has, or_imp, forall_and]

/-- The leaves of a `do` block are those of its body. -/
theorem has_doBlock {b : Body} : (Action.doBlock b).Has L ↔ BodyHas L b.body := by
  cases b
  simp [Action.Has, has_action_leaves]

/-- The leaves of a call: its name and its arguments. -/
theorem has_invoke {i : Invocation} :
    (Action.invoke i).Has L ↔ L (.name i.name) ∧ ∀ e ∈ i.args, e.Has L := by
  cases i
  simp [Action.Has, has_action_leaves]

/-- The leaves of an operation: its operator, the names that it binds, and its body. -/
theorem has_operation {o : Operation} :
    o.Has L ↔ (L (.operator o.operator) ∧ (∀ x ∈ o.item, L (.name x))
      ∧ ∀ x ∈ o.accumulator, L (.name x)) ∧ BodyHas L o.body := by
  simp [OperationOf.Has, Visit.Has, or_imp, forall_and]

/-- The leaves of an action as a value. -/
theorem has_expr_action {a : Action} : (Expr.action a).Has L ↔ a.Has L := by
  simp [Expr.Has, Action.Has]

/-- A string as a value is a leaf. -/
theorem has_expr_string {s : StringLit} : (Expr.string s).Has L ↔ L (.string s) := by
  simp [Expr.Has, has_value]

/-- A number as a value is a leaf. -/
theorem has_expr_number {n : Located String} : (Expr.number n).Has L ↔ L (.numeral n) := by
  simp [Expr.Has, Visit.Has]

/-- A name as a value is a leaf. -/
theorem has_expr_ident {x : Ident} : (Expr.ident x).Has L ↔ L (.name x) := by
  simp [Expr.Has, has_value]

/-- The leaves of an array are those of its items. -/
theorem has_expr_array {a : ArrayLit} : (Expr.array a).Has L ↔ ∀ e ∈ a.items, e.Has L := by
  cases a
  simp [Expr.Has, has_value]

/-- The leaves of an object are those of its entries. -/
theorem has_expr_object {o : ObjectLit} : (Expr.object o).Has L ↔ ∀ e ∈ o.entries, e.Has L := by
  cases o
  rw [Expr.Has, Expr.visits, List.forall_mem_cons, ← forall_entryVisits]
  simp [Visit.Has]

/-- A condition in stars as a value is a leaf. -/
theorem has_expr_discretion {d : Discretion} : (Expr.discretion d).Has L ↔ L (.discretion d) := by
  simp [Expr.Has, has_value]

/-- The leaves of a value of a property. -/
theorem has_property_expr {e : Expr} : (PropertyValue.expr e).Has L ↔ e.Has L := Iff.rfl

/-- The leaves of a context of a property are its names. -/
theorem has_property_context {c : Context} :
    (PropertyValue.context c).Has L ↔ ∀ x ∈ c.names, L (.name x) := by
  simp [PropertyValue.Has]

/-- The leaves of a group of properties are theirs. -/
theorem has_property_nested {ps : List Property} :
    (PropertyValue.nested ps).Has L ↔ ∀ p ∈ ps, p.Has L := by
  simp [PropertyValue.Has]

end

end ProseLang
