import ProseLang.Text.Position

/-!
# Scopes

A name means its innermost declaration. `Scopes` lists the scopes that are open at a point of a
program, the innermost first, each with its symbols in the order of their declaration.

Main statements: a name is declared once in a scope (`declare_duplicate`), a new symbol is what its
name means from then on (`lookup?_declare`), and the use of a name changes no meaning
(`lookup?_markUsed`).
-/

namespace ProseLang

/-- What introduces a name (`SymbolKind`). -/
inductive SymbolKind
  | variable
  | constant
  /-- The result of a named session. -/
  | session
  /-- The result of a branch that was not declared before. -/
  | branch
  | parameter
  /-- A name that a construct introduces for its body. -/
  | bodyLocal
deriving DecidableEq, Repr

/-- Whether the name must not be assigned (`SymbolKind::is_read_only`). -/
def SymbolKind.isReadOnly : SymbolKind → Bool
  | constant | session => true
  | _ => false

/-- Whether the name should be used somewhere. -/
def SymbolKind.isBinding : SymbolKind → Bool
  | .variable | .constant => true
  | _ => false

/-- A declared name (`Symbol`). -/
structure Symbol where
  name : String
  kind : SymbolKind
  span : Span
  used : Bool := false
deriving DecidableEq, Repr

/-- The symbols of one scope, in the order of declaration (`Scope`). -/
abbrev Scope := List Symbol

/-- The scopes around a point, innermost first (`ScopeStack`). -/
abbrev Scopes := List Scope

/-- An order in which scopes tell their symbols (`Scope::into_symbols`). -/
structure Enumeration where
  list : Scope → List Symbol
  perm (s : Scope) : (list s).Perm s

/-- The order of declaration. -/
def Enumeration.declared : Enumeration := ⟨id, fun _ ↦ .refl _⟩

namespace Scope

/-- The symbol of a name. -/
def find? (s : Scope) (name : String) : Option Symbol := List.find? (·.name = name) s

/-- Notes that a name is used. -/
def markUsed (s : Scope) (name : String) : Scope :=
  s.map fun x ↦ if x.name = name then { x with used := true } else x

end Scope

/-- What a declaration meets (`Declared`). -/
inductive Declared
  | fresh
  /-- The scope has the name already; the declaration has no effect. -/
  | duplicate (first : Span)
  /-- An outer scope has the name, which is hidden from now on. -/
  | shadows (outer : Span)
deriving DecidableEq, Repr

namespace Scopes

/-- What a name means (`ScopeStack::lookup`). -/
def lookup? (ss : Scopes) (name : String) : Option Symbol := ss.findSome? fun s ↦ s.find? name

/-- Whether a name means something. -/
def binds (ss : Scopes) (name : String) : Bool := (ss.lookup? name).isSome

/-- Notes that what a name means is used (`ScopeStack::mark_used`). -/
def markUsed (name : String) : Scopes → Scopes
  | [] => []
  | s :: ss => if (s.find? name).isSome then s.markUsed name :: ss else s :: markUsed name ss

/-- Adds a symbol to the innermost scope (`ScopeStack::declare`). -/
def declare (ss : Scopes) (x : Symbol) : Scopes × Declared :=
  match ss with
  | [] => ([[x]], .fresh)
  | s :: outer =>
    match s.find? x.name with
    | some first => (ss, .duplicate first.span)
    | none =>
      ((s ++ [x]) :: outer,
        match lookup? outer x.name with
        | some hidden => .shadows hidden.span
        | none => .fresh)

/-- A second declaration in one scope has no effect. -/
theorem declare_duplicate {s : Scope} {outer : Scopes} {x first : Symbol}
    (h : s.find? x.name = some first) :
    declare (s :: outer) x = (s :: outer, .duplicate first.span) := by
  simp [declare, h]

/-- A new symbol is what its name means. -/
theorem lookup?_declare {s : Scope} {outer : Scopes} {x : Symbol} (h : s.find? x.name = none) :
    (declare (s :: outer) x).1.lookup? x.name = some x := by
  simp only [Scope.find?] at h
  simp [declare, lookup?, Scope.find?, h, List.find?_append]

private theorem find?_markUsed (s : Scope) (name other : String) :
    ((s.markUsed name).find? other).map (·.kind) = (s.find? other).map (·.kind) := by
  induction s with
  | nil => rfl
  | cons x s ih =>
    simp only [Scope.find?, Scope.markUsed, List.map_cons] at ih ⊢
    by_cases hx : x.name = other <;> by_cases hn : x.name = name <;> simp_all

/-- The use of a name changes what no name means. -/
theorem lookup?_markUsed (ss : Scopes) (name other : String) :
    ((ss.markUsed name).lookup? other).map (·.kind) = (ss.lookup? other).map (·.kind) := by
  induction ss with
  | nil => rfl
  | cons s ss ih =>
    simp only [lookup?] at ih ⊢
    rw [markUsed]
    split
    · have h := find?_markUsed s name other
      simp only [List.findSome?_cons]
      cases h₁ : (s.markUsed name).find? other <;> cases h₂ : s.find? other <;> simp_all
    · simp only [List.findSome?_cons]
      cases s.find? other <;> simp_all

end Scopes

end ProseLang
