import ProseLang.Proofs.Editor.Highlights

/-!
# Kinds and modifiers of highlights

What is highlighted of a part of a program, apart from the arrow behind it, is styled in few ways:
it is no comment, as an operator it is a single character, and it has one of four lists of modifiers
(`Visit.styled`). Each way of highlighting gives one kind and one list of modifiers
(`Highlight.Marked`), but for strings, in which names are highlighted as such.
-/

namespace ProseLang

namespace Highlight

variable {kind : HighlightKind} {modifiers : List HighlightModifier} {s : Span}
  {hs gs : List Highlight}

/-! ## One kind -/

/-- Whether highlights all have one kind and one list of modifiers. -/
def Marked (kind : HighlightKind) (modifiers : List HighlightModifier) (hs : List Highlight) :
    Prop :=
  ∀ h ∈ hs, h.kind = kind ∧ h.modifiers = modifiers

private theorem marked_nil : Marked kind modifiers [] :=
  fun _ member ↦ absurd member List.not_mem_nil

private theorem marked_nonempty {line start length : Nat} :
    Marked kind modifiers (nonempty ⟨line, start, length, kind, modifiers⟩) := by
  intro h member
  rw [(mem_nonempty.1 member).1]
  exact ⟨rfl, rfl⟩

/-- A span has the kind and the modifiers that it is highlighted with. -/
theorem marked_ofSpan : Marked kind modifiers (ofSpan kind s modifiers) := by
  rw [ofSpan]
  split
  · exact marked_nil
  · exact marked_nonempty

private theorem marked_ofKeyword {word : Keyword} : Marked .keyword [] (ofKeyword word s) := by
  rw [ofKeyword]
  split
  · exact marked_nil
  · exact marked_nonempty

private theorem marked_ofLines {n column : Nat} {lines : List (List Char)} :
    Marked kind [] (ofLines kind n column lines) := by
  induction lines generalizing n column with
  | nil => exact marked_nil
  | cons line lines ih => exact List.forall_mem_append.2 ⟨marked_nonempty, ih⟩

/-- A text has the kind that it is highlighted with. -/
theorem marked_ofText {p : Position} {text : List Char} : Marked kind [] (ofText kind p text) := by
  rw [ofText]
  split
  · exact marked_nil
  · exact marked_ofLines

/-! ## Styles -/

/-- The lists of modifiers that highlights have. -/
def modifierLists : List (List HighlightModifier) :=
  [[], [.declaration], [.declaration, .definition], [.declaration, .readonly]]

/-- The lists of modifiers, one by one. -/
@[simp]
theorem mem_modifierLists : modifiers ∈ modifierLists ↔ modifiers = [] ∨ modifiers = [.declaration]
    ∨ modifiers = [.declaration, .definition] ∨ modifiers = [.declaration, .readonly] := by
  simp [modifierLists]

/-- Whether a highlight may be that of a part of a program, apart from the arrow behind it. -/
structure IsStyled (h : Highlight) : Prop where
  comment : h.kind ≠ .comment
  operator : h.kind = .operator → h.length = 1
  modifiers : h.modifiers ∈ modifierLists

/-- Whether highlights may be those of a part of a program, apart from the arrow behind it. -/
def Styled (hs : List Highlight) : Prop := ∀ h ∈ hs, h.IsStyled

private theorem Marked.styled (marked : Marked kind modifiers hs) (comment : kind ≠ .comment)
    (operator : kind ≠ .operator) (listed : modifiers ∈ modifierLists) : Styled hs := by
  intro h member
  obtain ⟨rfl, rfl⟩ := marked h member
  exact ⟨comment, fun same ↦ absurd same operator, listed⟩

namespace Styled

variable {α : Type} {f : α → List Highlight}

/-- No highlights. -/
@[simp]
theorem nil : Styled [] := fun _ member ↦ absurd member List.not_mem_nil

/-- Highlights one after the other. -/
@[simp]
theorem append_iff : Styled (hs ++ gs) ↔ Styled hs ∧ Styled gs := List.forall_mem_append

/-- Highlights of each element of a list. -/
@[simp]
theorem flatMap_iff {xs : List α} : Styled (xs.flatMap f) ↔ ∀ x ∈ xs, Styled (f x) :=
  List.forall_mem_flatMap

/-- Highlights of what may be there. -/
@[simp]
theorem ofOption_iff {x : Option α} : Styled (ofOption f x) ↔ ∀ a ∈ x, Styled (f a) := by
  cases x <;> simp [Highlight.ofOption_none, Highlight.ofOption_some]

/-- A span with a kind and modifiers of a part of a program. -/
@[simp]
theorem ofSpan (comment : kind ≠ .comment) (operator : kind ≠ .operator)
    (listed : modifiers ∈ modifierLists) : Styled (ofSpan kind s modifiers) :=
  marked_ofSpan.styled comment operator listed

/-- Reserved words are parts of a program. -/
@[simp]
theorem ofKeyword (word : Keyword) (s : Span) : Styled (ofKeyword word s) :=
  marked_ofKeyword.styled (by decide) (by decide) (by simp)

/-- A text with a kind of a part of a program. -/
@[simp]
theorem ofText {p : Position} {text : List Char} (comment : kind ≠ .comment)
    (operator : kind ≠ .operator) : Styled (ofText kind p text) :=
  marked_ofText.styled comment operator (by simp)

/-- A string with a kind of a part of a program, and the names in it. -/
@[simp]
theorem ofString {s : StringLit} (comment : kind ≠ .comment) (operator : kind ≠ .operator) :
    Styled (ofString kind s) := by
  have rest (done : Nat) (p : Position) :
      Styled (((dropBytes? done s.raw.toList).map (Highlight.ofText kind p)).getD []) := by
    cases dropBytes? done s.raw.toList with
    | none => exact nil
    | some text => exact ofText comment operator
  have names (names : List Ident) (done : Nat) (p : Position) :
      Styled (ofStringFrom kind s done p names) := by
    induction names generalizing done p with
    | nil => exact rest done p
    | cons name names ih =>
      rw [ofStringFrom]
      split
      · exact rest done p
      · refine append_iff.2 ⟨append_iff.2 ⟨ofText comment operator, ?_⟩, ih _ _⟩
        exact marked_nonempty.styled (by decide) (by decide) (by simp)
  rw [Highlight.ofString]
  split
  · exact nil
  · exact names _ _ _

/-- A model is a part of a program. -/
@[simp]
theorem ofModel (m : Ident) : Styled (ofModel m) := by
  rw [Highlight.ofModel]
  split
  · simp [ofIdent]
  · exact nil

end Styled

end Highlight

open Highlight

/-! ## Parts -/

private theorem Statement.styled (s : Statement) : Styled s.highlights := by
  cases s with
  | binding kind b => cases kind <;> simp [highlights, ofDeclared, ofIdent]
  | forEach f =>
    simp only [highlights]
    split <;> simp [ofDeclared, ofIdent]
  | conditional c =>
    simp only [highlights, ofBranches]
    split <;> simp
  | _ => simp [highlights, ofDeclared, ofIdent, ofIdents, ofNumber, ofQuoted, ofAsBinding]

private theorem Action.styled (a : Action) : Styled a.withoutArrow.highlights := by
  cases a <;> simp [withoutArrow, highlights, ofDeclared, ofIdent, ofIdents, ofNumber, ofQuoted]

private theorem OperationOf.styled (o : Operation) : Styled o.highlights := by
  simp only [highlights, Styled.append_iff]
  refine ⟨⟨⟨?_, ?_⟩, ?_⟩, ?_⟩
  · split
    · exact .nil
    · exact List.forall_mem_singleton.2 ⟨by simp, fun _ ↦ rfl, by simp⟩
  all_goals simp [ofDeclared, ofIdent]

/-- What is highlighted of a part, but for an arrow, is no comment and has known modifiers. -/
theorem Visit.styled (v : Visit) : Styled v.lasting := by
  cases v with
  | statement s => exact s.styled
  | action a => exact a.styled
  | operation o => exact o.styled
  | value e => cases e <;> simp [lasting, highlights, ofIdent]
  | discretion d =>
    simp only [lasting, highlights]
    split <;> simp
  | _ => simp [lasting, highlights, ofIdents, ofIdent]

end ProseLang
