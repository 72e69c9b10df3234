import ProseLang.Proofs.Canonical.Sites
import ProseLang.Proofs.Validation.Scoping

/-!
# Bindings in use

A let or const binding is reported if its scope ends before it has been used. `Program.usages` tells
along the tree what there is to say about the use of names, each time with what names mean there. A
name stands for the binding of its name in the scope with a certain number (`Env.holder?`), so one
can tell from outside of the check which bindings have been used when a scope ends.

Besides the names that are written, a check takes the result of a statement to be used if the next
statement has a session without a context somewhere in it (`Usage.implied`). That session need not
be given this result; `Usage.handed` says what it is given. A check marks bindings in the scopes
that it carries along, where the mark of a name falls on the binding that the name stands for
(`Scopes.usedAt_markUsed`).
-/

namespace ProseLang

/-- The number of the scope of a let or const binding. -/
def bindingScope? (located : Option (Nat × Declaration)) : Option Nat :=
  located.bind fun b ↦ if b.2.kind.isBinding then some b.1 else none

/-- The number of the scope with the let or const binding that a name stands for, if it stands for
one. -/
def Env.holder? (Γ : Env) (name : String) : Option Nat := bindingScope? (Γ.locate name)

/-- The declaration, if it is of a let or const binding. -/
def bindingOf (d : Option Declaration) : Option Declaration := d.filter (·.kind.isBinding)

/-- Whether the innermost scope has a let or const binding, which is known by its name and the place
of its name. -/
def Env.Declares (Γ : Env) (x : Ident) : Prop :=
  ∃ d, bindingOf (Γ.headD emptyScope x.val) = some d ∧ d.span = x.span

/-- What there is to say about the use of names at some point of a program. -/
inductive Usage
  /-- A name is used. -/
  | use (Γ : Env) (name : String)
  /-- The statement that follows has a session without a context in it, and the name is one of those
  of the result before. -/
  | implied (Γ : Env) (name : String)
  /-- A session without a context takes what is handed down to it. -/
  | handed (Γ : Env) (given : Given)
  /-- A scope ends. -/
  | ends (Γ : Env) (within : List Usage)

namespace Usage

/-- Whether a name is used that stands for a binding of the scope with the number `n`. -/
def Uses (n : Nat) (x : String) : Usage → Prop
  | use Γ name => name = x ∧ Γ.holder? x = some n
  | _ => False

/-- Whether a name is taken to be used that stands for a binding of the scope with the number
`n`. -/
def Implies (n : Nat) (x : String) : Usage → Prop
  | implied Γ name => name = x ∧ Γ.holder? x = some n
  | _ => False

/-- Whether a session without a context is given a name that stands for a binding of the scope with
the number `n`. -/
def Takes (n : Nat) (x : String) : Usage → Prop
  | handed Γ given => x ∈ given.names.map Prod.fst ∧ Γ.holder? x = some n
  | _ => False

/-- What a check counts. -/
def Seen (n : Nat) (x : String) (u : Usage) : Prop := u.Uses n x ∨ u.Implies n x

/-- What would count if all contexts were written. -/
def Due (n : Nat) (x : String) (u : Usage) : Prop := u.Uses n x ∨ u.Takes n x

/-- Whether a scope ends that has a binding of which nothing in it counts as a use. -/
def Leaves (counts : Nat → String → Usage → Prop) (x : Ident) : Usage → Prop
  | ends Γ within => Γ.Declares x ∧ ¬ ∃ u ∈ within, counts Γ.tail.length x.val u
  | _ => False

/-- What is in a scope, and its end. -/
def closing (Γ : Env) (us : List Usage) : List Usage := us ++ [.ends Γ us]

section

variable {Γ : Env} {name x : String} {given : Given} {within : List Usage} {n : Nat}
  {counts : Nat → String → Usage → Prop} {y : Ident}

/-- A use is seen of the binding that its name stands for. -/
@[simp] theorem seen_use : (use Γ name).Seen n x ↔ name = x ∧ Γ.holder? x = some n := or_iff_left id

/-- An implied use is seen of the binding that its name stands for. -/
@[simp] theorem seen_implied : (implied Γ name).Seen n x ↔ name = x ∧ Γ.holder? x = some n :=
  or_iff_right id

/-- What is handed down is not seen. -/
@[simp] theorem not_seen_handed : ¬ (handed Γ given).Seen n x := fun h ↦ h.elim id id

/-- The end of a scope sees no use. -/
@[simp] theorem not_seen_ends : ¬ (ends Γ within).Seen n x := fun h ↦ h.elim id id

/-- A use is due of the binding that its name stands for. -/
@[simp] theorem due_use : (use Γ name).Due n x ↔ name = x ∧ Γ.holder? x = some n := or_iff_left id

/-- An implied use is not due. -/
@[simp] theorem not_due_implied : ¬ (implied Γ name).Due n x := fun h ↦ h.elim id id

/-- What is handed down is due of each of its names. -/
@[simp] theorem due_handed :
    (handed Γ given).Due n x ↔ x ∈ given.names.map Prod.fst ∧ Γ.holder? x = some n :=
  or_iff_right id

/-- The end of a scope is no use. -/
@[simp] theorem not_due_ends : ¬ (ends Γ within).Due n x := fun h ↦ h.elim id id

/-- A use leaves no binding behind. -/
@[simp] theorem not_leaves_use : ¬ (use Γ name).Leaves counts y := id

/-- An implied use leaves no binding behind. -/
@[simp] theorem not_leaves_implied : ¬ (implied Γ name).Leaves counts y := id

/-- What is handed down leaves no binding behind. -/
@[simp] theorem not_leaves_handed : ¬ (handed Γ given).Leaves counts y := id

/-- The end of a scope leaves its bindings behind of which nothing in it counts as a use. -/
@[simp] theorem leaves_ends : (ends Γ within).Leaves counts y
    ↔ Γ.Declares y ∧ ¬ ∃ u ∈ within, counts Γ.tail.length y.val u := Iff.rfl

end

end Usage

/-! ## The walk -/

/-- The names in a string. -/
def StringLit.usages (Γ : Env) (s : StringLit) : List Usage :=
  s.interpolations.map fun name ↦ .use Γ name.val

/-- The names in a session, or what is handed down to it. -/
def SessionOf.usages (Γ : Env) (given : Given) (s : Session) : List Usage :=
  s.prompt.toList.flatMap (StringLit.usages Γ)
    ++ (s.context.names.map fun name ↦ .use Γ name.val)
    ++ if s.context.isImplicit then [.handed Γ given] else []

mutual

/-- What there is to say about the use of names in a statement. -/
def Statement.usages (p : Place) (Γ : Env) (given : Given) : Statement → List Usage
  | .comment _ | .importSkill _ | .agent _ => []
  | .block ⟨_, params, body, _⟩ =>
    let inside := Γ.enter .parameter params
    Usage.closing (bodyEnvAfter false inside body) (bodyUsages p.inBody inside [] {} body)
  | .binding _ ⟨_, value, _⟩ => value.usages p Γ given
  | .assignment ⟨_, value, _⟩ => value.usages p Γ given
  | .action a => a.usages p Γ given
  | .parallel ⟨_, _, _, _, body, _⟩ => bodyUsages p.branches Γ [] given body
  | .repeated ⟨_, index, body, _⟩ =>
    let names := (index.map AsBinding.name).toList
    let inside := Γ.enter .bodyLocal names
    Usage.closing (bodyEnvAfter false inside body)
      (bodyUsages p.inBody inside [] (given.past (names.map Located.val)) body)
  | .forEach ⟨item, index, collection, _, _, _, body, _⟩ =>
    let names := item :: index.toList
    let inside := Γ.enter .bodyLocal names
    collection.usages p Γ given
      ++ Usage.closing (bodyEnvAfter false inside body)
        (bodyUsages p.inBody inside [] (given.past (names.map Located.val)) body)
  | .loop ⟨_, _, index, _, body, _⟩ =>
    let names := (index.map AsBinding.name).toList
    let inside := Γ.enter .bodyLocal names
    Usage.closing (bodyEnvAfter false inside body)
      (bodyUsages p.inBody inside [] (given.past (names.map Located.val)) body)
  | .attempt ⟨body, handler, cleanup, _⟩ =>
    let inside := Γ.enter .bodyLocal []
    Usage.closing (bodyEnvAfter false inside body) (bodyUsages p.inBody inside [] given body)
      ++ handlerUsages p Γ given handler ++ clauseUsages p Γ given cleanup
  | .throw t => t.message.toList.flatMap (StringLit.usages Γ)
  | .choice ⟨_, options, _⟩ => optionUsages p Γ given options
  | .conditional ⟨branches, otherwise, _⟩ =>
    conditionUsages p Γ given branches ++ clauseUsages p Γ given otherwise

/-- What there is to say about statements in order; `before` are the names of the result of the
statement before. The last result of a nested body is used by what is around the body. -/
def bodyUsages (p : Place) (Γ : Env) (before : List String) (given : Given) :
    List Statement → List Usage
  | [] => if p.nested then before.map (.use Γ) else []
  | s :: body =>
    let after := s.envAfter p.isBranch Γ
    let result := Check.resultNames s
    (if s.isExecutable && Check.seesPredecessor s then before.map (.implied Γ) else [])
      ++ s.usages p Γ given
      ++ bodyUsages (p.past s) after (if s.isExecutable then result else before)
        (if p.isBranch then given.past s.introduces
          else if s.isExecutable then after.give result else given) body

/-- What there is to say about a handler. -/
def handlerUsages (p : Place) (Γ : Env) (given : Given) : Option Handler → List Usage
  | none => []
  | some ⟨error, body, _⟩ =>
    let names := (error.map AsBinding.name).toList
    let inside := Γ.enter .bodyLocal names
    Usage.closing (bodyEnvAfter false inside body)
      (bodyUsages p.handling inside [] (given.past (names.map Located.val)) body)

/-- What there is to say about a clause that has a body only. -/
def clauseUsages (p : Place) (Γ : Env) (given : Given) : Option Body → List Usage
  | none => []
  | some ⟨body, _⟩ =>
    let inside := Γ.enter .bodyLocal []
    Usage.closing (bodyEnvAfter false inside body) (bodyUsages p.inBody inside [] given body)

/-- What there is to say about the options of a choice. -/
def optionUsages (p : Place) (Γ : Env) (given : Given) : List ChoiceOption → List Usage
  | [] => []
  | ⟨label, body, _⟩ :: options =>
    let inside := Γ.enter .bodyLocal []
    label.usages Γ
      ++ Usage.closing (bodyEnvAfter false inside body) (bodyUsages p.inBody inside [] given body)
      ++ optionUsages p Γ given options

/-- What there is to say about conditional branches. -/
def conditionUsages (p : Place) (Γ : Env) (given : Given) : List Branch → List Usage
  | [] => []
  | ⟨_, _, body, _⟩ :: branches =>
    let inside := Γ.enter .bodyLocal []
    Usage.closing (bodyEnvAfter false inside body) (bodyUsages p.inBody inside [] given body)
      ++ conditionUsages p Γ given branches

/-- What there is to say about an action. -/
def Action.usages (p : Place) (Γ : Env) (given : Given) : Action → List Usage
  | .session s => SessionOf.usages Γ given s
  | .pipe ⟨input, operations, _⟩ => input.usages p Γ given ++ operationUsages p Γ operations
  | .doBlock ⟨body, _⟩ =>
    let inside := Γ.enter .bodyLocal []
    Usage.closing (bodyEnvAfter false inside body) (bodyUsages p.inBody inside [] given body)
  | .invoke ⟨_, args, _⟩ => valueUsages p Γ given args

/-- What there is to say about pipe operations. -/
def operationUsages (p : Place) (Γ : Env) : List Operation → List Usage
  | [] => []
  | ⟨operator, item, accumulator, body, span⟩ :: operations =>
    let header : Operation := ⟨operator, item, accumulator, [], span⟩
    let inside := Γ.enter .bodyLocal header.names
    Usage.closing (bodyEnvAfter false inside body)
        (bodyUsages p.inBody inside [] (inside.give (header.names.map Located.val)) body)
      ++ operationUsages p Γ operations

/-- What there is to say about a value. -/
def Expr.usages (p : Place) (Γ : Env) (given : Given) : Expr → List Usage
  | .action a => a.usages p Γ given
  | .string s => s.usages Γ
  | .number _ | .discretion _ => []
  | .ident name => [.use Γ name.val]
  | .array ⟨items, _⟩ => valueUsages p Γ given items
  | .object ⟨entries, _⟩ => entryUsages p Γ given entries

/-- What there is to say about values. -/
def valueUsages (p : Place) (Γ : Env) (given : Given) : List Expr → List Usage
  | [] => []
  | e :: es => e.usages p Γ given ++ valueUsages p Γ given es

/-- What there is to say about the entries of an object. -/
def entryUsages (p : Place) (Γ : Env) (given : Given) : List Entry → List Usage
  | [] => []
  | ⟨_, some value⟩ :: entries => value.usages p Γ given ++ entryUsages p Γ given entries
  | ⟨key, none⟩ :: entries => .use Γ key.val :: entryUsages p Γ given entries

end

/-- What there is to say about the use of names in a program. -/
def Program.usages (p : Program) : List Usage :=
  Usage.closing (bodyEnvAfter false [Env.emptyScope] p.statements)
    (bodyUsages {} [Env.emptyScope] [] {} p.statements)

/-- Something in two lists is in one of them. -/
theorem exists_mem_append {α : Type} {P : α → Prop} {a b : List α} :
    (∃ u ∈ a ++ b, P u) ↔ (∃ u ∈ a, P u) ∨ ∃ u ∈ b, P u := by
  simp only [List.mem_append, or_and_right, exists_or]

/-- Something in the image of a list comes from one of its elements. -/
theorem exists_mem_map {α β : Type} {f : α → β} {P : β → Prop} {as : List α} :
    (∃ u ∈ as.map f, P u) ↔ ∃ a ∈ as, P (f a) := by
  simp only [List.mem_map]
  constructor
  · rintro ⟨_, ⟨a, member, rfl⟩, h⟩
    exact ⟨a, member, h⟩
  · rintro ⟨a, member, h⟩
    exact ⟨f a, ⟨a, member, rfl⟩, h⟩

/-! ## Marks -/

/-- The finding about a binding that is not used. -/
def unusedFinding (x : Ident) : Finding := ⟨.unusedBinding x.val, x.span⟩

/-- Whether an issue is about a binding that is not used. -/
def Issue.isUnused : Issue → Bool
  | unusedBinding _ => true
  | _ => false

namespace Scopes

/-- Whether names are different in each scope. -/
def Proper (ss : Scopes) : Prop := ∀ s ∈ ss, (s.map Symbol.name).Nodup

/-- Whether the binding of a name in the scope with the number `n` is marked as used. -/
def usedAt : Scopes → Nat → String → Bool
  | [], _, _ => false
  | s :: ss, n, x =>
    if n = ss.length then (s.find? x).any fun y ↦ y.kind.isBinding && y.used else usedAt ss n x

/-- There are as many scopes in the checker as in the environment. -/
theorem Means.length {ss : Scopes} {Γ : Env} (h : ss.Means Γ) : ss.length = Γ.length := by
  induction h with
  | nil => rfl
  | cons _ _ ih => rw [List.length_cons, List.length_cons, ih]

end Scopes

private theorem Env.locate_lt {Γ : Env} {name : String} {b : Nat × Declaration}
    (h : Γ.locate name = some b) : b.1 < Γ.length := by
  induction Γ with
  | nil => cases h
  | cons scope Γ ih =>
    rw [locate] at h
    split at h
    · obtain rfl := Option.some.inj h
      exact Nat.lt_succ_self _
    · exact Nat.lt_succ_of_lt (ih h)

private theorem bindingScope?_eq_some {located : Option (Nat × Declaration)} {n : Nat} :
    bindingScope? located = some n ↔ ∃ d, located = some (n, d) ∧ d.kind.isBinding = true := by
  cases located with
  | none => simp [bindingScope?]
  | some b =>
    rcases b with ⟨m, d⟩
    change (if d.kind.isBinding then some m else none) = some n ↔ _
    constructor
    · intro h
      split at h
      · next binding => exact ⟨d, by rw [Option.some.inj h], binding⟩
      · cases h
    · rintro ⟨d', same, binding⟩
      obtain ⟨rfl, rfl⟩ := Prod.mk.inj (Option.some.inj same)
      exact if_pos binding

/-- A name stands for what the innermost scope that has it says. -/
theorem Env.holder?_cons (scope : String → Option Declaration) (Γ : Env) (x : String) :
    Env.holder? (scope :: Γ) x
      = if (scope x).isSome then (bindingOf (scope x)).map fun _ ↦ Γ.length else Γ.holder? x := by
  rw [Env.holder?, locate]
  cases found : scope x with
  | none => rfl
  | some d =>
    cases binding : d.kind.isBinding <;> simp [bindingScope?, bindingOf, Option.filter, binding]

/-- The number of the scope of a binding is that of a scope. -/
theorem Env.holder?_lt {Γ : Env} {name : String} {n : Nat} (h : Γ.holder? name = some n) :
    n < Γ.length := by
  obtain ⟨d, located, -⟩ := bindingScope?_eq_some.1 h
  exact Env.locate_lt located

namespace Scope

/-- A mark changes nothing else about the symbol of a name. -/
theorem find?_markUsed_eq (s : Scope) (name x : String) :
    (s.markUsed name).find? x
      = (s.find? x).map fun y ↦ if x = name then { y with used := true } else y := by
  induction s with
  | nil => rfl
  | cons y s ih =>
    have kept : (if y.name = name then { y with used := true } else y).name = y.name := by
      split <;> rfl
    rw [markUsed, List.map_cons, find?, find?, List.find?_cons, List.find?_cons, kept]
    by_cases here : y.name = x
    · simp [here]
    · simp only [here, decide_false]
      exact ih

private theorem map_name_markUsed (s : Scope) (name : String) :
    (s.markUsed name).map Symbol.name = s.map Symbol.name := by
  rw [markUsed, List.map_map]
  apply List.map_congr_left
  intro y _
  dsimp only [Function.comp]
  split <;> rfl

/-- In a scope with different names, a symbol is what its name stands for. -/
theorem find?_of_mem {s : Scope} (h : (s.map Symbol.name).Nodup) {y : Symbol} (member : y ∈ s) :
    s.find? y.name = some y := by
  induction s with
  | nil => cases member
  | cons z s ih =>
    obtain ⟨apart, rest⟩ := List.nodup_cons.1 h
    rw [find?, List.find?_cons]
    rcases List.mem_cons.1 member with rfl | later
    · simp
    · have ne : z.name ≠ y.name := fun same ↦ apart (same ▸ List.mem_map_of_mem later)
      simp only [ne, decide_false]
      exact ih rest later

/-- A let or const binding is without a mark. -/
theorem idle_iff (s : Scope) (x : Ident) :
    (∃ y, s.find? x.val = some y ∧ y.kind.isBinding = true ∧ y.span = x.span ∧ y.used = false)
      ↔ (∃ d, bindingOf ((s.find? x.val).map Symbol.declaration) = some d ∧ d.span = x.span)
        ∧ ¬ ((s.find? x.val).any fun y ↦ y.kind.isBinding && y.used) = true := by
  cases s.find? x.val with
  | none => simp [bindingOf]
  | some y =>
    cases binding : y.kind.isBinding <;>
      simp [bindingOf, Option.filter, Symbol.declaration, binding]

end Scope

namespace Scopes

private theorem length_markUsed (ss : Scopes) (name : String) :
    (ss.markUsed name).length = ss.length := by
  induction ss with
  | nil => rfl
  | cons s ss ih =>
    rw [markUsed]
    split
    · rfl
    · rw [List.length_cons, ih, List.length_cons]

/-- Marking a name as used leaves names different. -/
theorem Proper.markUsed {ss : Scopes} (h : ss.Proper) (name : String) :
    (ss.markUsed name).Proper := by
  induction ss with
  | nil => exact h
  | cons s ss ih =>
    obtain ⟨first, rest⟩ := List.forall_mem_cons.1 h
    rw [Scopes.markUsed]
    split
    · refine List.forall_mem_cons.2 ⟨?_, rest⟩
      rwa [Scope.map_name_markUsed]
    · exact List.forall_mem_cons.2 ⟨first, ih rest⟩

/-- The use of a name marks the binding that the name stands for. -/
theorem usedAt_markUsed {ss : Scopes} {Γ : Env} (means : ss.Means Γ) (name : String) (n : Nat)
    (x : String) :
    (ss.markUsed name).usedAt n x = true
      ↔ ss.usedAt n x = true ∨ name = x ∧ Γ.holder? x = some n := by
  induction means with
  | nil => simp [Scopes.markUsed, usedAt, Env.holder?, Env.locate, bindingScope?]
  | @cons s ss scope Γ head tail ih =>
    have holder := Env.holder?_cons scope Γ name
    rw [← head name, ← tail.length] at holder
    rw [Scopes.markUsed]
    cases found : s.find? name with
    | some y =>
      rw [found, Option.map_some, if_pos Option.isSome_some] at holder
      rw [if_pos Option.isSome_some, usedAt, usedAt]
      by_cases number : n = ss.length
      · subst number
        rw [if_pos rfl, if_pos rfl, Scope.find?_markUsed_eq]
        by_cases same : name = x
        · subst same
          rw [found, holder]
          cases binding : y.kind.isBinding <;> simp [binding, bindingOf, Option.filter,
            Symbol.declaration]
        · have other : ¬ x = name := fun eq ↦ same eq.symm
          simp [same, other]
      · rw [if_neg number, if_neg number]
        refine ⟨.inl, fun h ↦ h.elim id ?_⟩
        rintro ⟨rfl, held⟩
        rw [holder] at held
        obtain ⟨-, -, is⟩ := Option.map_eq_some_iff.1 held
        exact absurd is.symm number
    | none =>
      replace holder : Env.holder? (scope :: Γ) name = Γ.holder? name := by rwa [found] at holder
      rw [if_neg (Option.isSome_none ▸ Bool.false_ne_true), usedAt, usedAt, length_markUsed]
      by_cases number : n = ss.length
      · rw [if_pos number, if_pos number]
        refine ⟨.inl, fun h ↦ h.elim id ?_⟩
        rintro ⟨rfl, held⟩
        have below := Env.holder?_lt (holder ▸ held)
        exact absurd (number.trans tail.length) (Nat.ne_of_lt below)
      · rw [if_neg number, if_neg number, ih]
        refine or_congr_right (and_congr_right ?_)
        rintro rfl
        rw [holder]

/-- What is declared is not marked as used. -/
theorem usedAt_declare (ss : Scopes) {y : Symbol} (unused : y.used = false) (n : Nat) (x : String) :
    (ss.declare y).1.usedAt n x = ss.usedAt n x := by
  cases ss with
  | nil =>
    by_cases first : n = 0
    · by_cases same : y.name = x <;> simp [declare, usedAt, Scope.find?, first, same, unused]
    · simp [declare, usedAt, first]
  | cons s ss =>
    rw [declare]
    cases found : s.find? y.name with
    | some _ => rfl
    | none =>
      rw [usedAt, usedAt]
      congr 1
      have both : Scope.find? (s ++ [y]) x = (s.find? x).or (Scope.find? [y] x) := List.find?_append
      rw [both]
      cases s.find? x with
      | some z => rfl
      | none =>
        by_cases same : y.name = x <;> simp [Scope.find?, same, unused]

/-- Declaring a name leaves names different. -/
theorem Proper.declare {ss : Scopes} (h : ss.Proper) (y : Symbol) : (ss.declare y).1.Proper := by
  have alone : [y.name].Nodup := List.nodup_cons.2 ⟨List.not_mem_nil, List.nodup_nil⟩
  cases ss with
  | nil => exact List.forall_mem_singleton.2 alone
  | cons s ss =>
    rw [Scopes.declare]
    cases found : s.find? y.name with
    | some _ => exact h
    | none =>
      obtain ⟨first, rest⟩ := List.forall_mem_cons.1 h
      refine List.forall_mem_cons.2 ⟨?_, rest⟩
      rw [List.map_append, List.nodup_append]
      refine ⟨first, alone, ?_⟩
      intro a old b new
      obtain rfl := List.mem_singleton.1 new
      rintro rfl
      obtain ⟨z, member, same⟩ := List.mem_map.1 old
      exact List.find?_eq_none.1 found z member (by simpa using same)

end Scopes

end ProseLang
