import ProseLang.Proofs.Canonical.Leaves
import ProseLang.Proofs.Canonical.Printed
import ProseLang.Proofs.Grammar.Leaves

/-!
# The marks of a canonical text

Every mark in the text of a program has text as long as the leaves of the program have
(`Leaf.IsSolid`, `bodyDoc_solid`), and nothing is unmarked if the outermost statements have places
(`bodyDoc_placed`). The leaves and the outermost statements of a parsed program come from tokens,
which have text and places, and canonicalization keeps that. So the source map of a compiled program
describes its text (`compile_sourceMap_describes`).
-/

namespace ProseLang

/-! ## Leaves -/

/-- Whether a leaf has text where it is written as it is. -/
def Leaf.IsSolid : Leaf → Prop
  | name x | key x | numeral x => x.val ≠ ""
  | string s => s.raw ≠ ""
  | discretion d => d.raw ≠ ""
  | quoted _ | model _ | count _ | comment _ | keyword _ _ | operator _ | arrow _ => True

private theorem Leaf.isSolid_made : Leaf.HoldsOfMade Leaf.IsSolid where
  again _ h := h
  anonymous n := by simp [IsSolid, Located.made, anonymousName]
  branch n := by simp [IsSolid, Located.made, branchName]
  item := by simp [IsSolid, Located.made, OperationOf.defaultItem]
  accumulator := by simp [IsSolid, Located.made, OperationOf.defaultAccumulator]
  quoted _ _ := trivial
  count _ := trivial

private theorem Leaf.isSolid_giveMarks : Leaf.GiveMarks Leaf.IsSolid fun _ d ↦ d.chars ≠ [] where
  leaf l h text printed := by
    -- a string has its quotes at least, and a model is written bare only if it is a name
    have quotes (s : String) : (StringLiteral.ofText s).raw ≠ "" := by
      simp [StringLiteral.ofText, StringLiteral.decode, StringLiteral.quotes]
    have some : text ≠ "" := by
      cases l with
      | name | key | numeral | string | discretion =>
        cases printed
        exact h
      | quoted x =>
        cases printed
        exact quotes x.val
      | count n =>
        cases printed
        simp
      | model x =>
        cases printed
        split
        · next plain =>
          intro none
          rw [none] at plain
          exact absurd plain (by decide)
        · exact quotes x.val
      | _ => cases printed
    simpa using some
  construct _ _ some _ := some

private theorem Doc.solid_iff_each {d : Doc} : d.Solid ↔ d.Each fun _ d ↦ d.chars ≠ [] := by
  induction d with
  | text s => exact Iff.rfl
  | append a b iha ihb => exact and_congr iha ihb
  | mark origin d ih => exact and_congr Iff.rfl ih

/-- Every mark in the lines of a body has text. -/
theorem bodyDoc_solid (i : Indent) {body : List Statement} (h : BodyHas Leaf.IsSolid body) :
    (bodyDoc i body).Solid :=
  Doc.solid_iff_each.2 (bodyDoc_each Leaf.isSolid_giveMarks i body h)

/-- Outermost statements are not indented, so nothing stands between their marks. -/
theorem bodyDoc_placed (unit : Nat) {body : List Statement}
    (h : ∀ s ∈ body, s.span.isNowhere = false) : (bodyDoc ⟨unit, 0⟩ body).Placed := by
  induction body with
  | nil => rfl
  | cons s body ih =>
    obtain ⟨first, rest⟩ := List.forall_mem_cons.1 h
    refine ⟨⟨?_, .inl first⟩, ih rest⟩
    change String.ofList (List.replicate (0 * unit) ' ') = ""
    rw [Nat.zero_mul]
    rfl

/-! ## Parsed programs -/

/-- Tokens have text, and they are on lines that the text has. -/
theorem Covers.solid {p : Position} {text : List Char} {ts : List Token} (h : Covers p text ts) :
    ∀ t ∈ ts, p.line ≤ t.span.start.line ∧ ∀ s ∈ t.kind.text?, s ≠ "" := by
  induction h with
  | gap => exact nofun
  | token p isGap taken_ne_nil written others ih =>
    intro t ht
    rcases List.mem_cons.1 ht with rfl | ht
    · refine ⟨?_, ?_⟩
      · rw [Position.line_after]
        exact Nat.le_add_right _ _
      · rintro s hs rfl
        exact taken_ne_nil (written "" hs).symm
    · obtain ⟨line, spelled⟩ := ih t ht
      rw [Position.line_after] at line
      exact ⟨Nat.le_of_add_right_le line, spelled⟩

private theorem visible_tokenize_solid (source : String) :
    ∀ t ∈ visible (tokenize source).tokens,
      1 ≤ t.span.start.line ∧ ∀ s ∈ t.kind.text?, s ≠ "" := by
  rw [tokenize, visible_tokenizeChars]
  exact (covers_lexemes .start source.toList).solid

/-- What is read from tokens that have text has text. -/
theorem Leaf.IsRead.isSolid {ts : List Token} (spelled : ∀ t ∈ ts, ∀ s ∈ t.kind.text?, s ≠ "")
    {l : Leaf} (h : l.IsRead ts) : l.IsSolid := by
  cases l with
  | name x => exact spelled _ h _ rfl
  | key x =>
    rcases h with h | ⟨word, h, text⟩
    · exact spelled _ h _ rfl
    · have some := spelled _ h _ rfl
      rwa [text] at some
  | numeral x => exact spelled _ h _ rfl
  | string s =>
    obtain ⟨literal, h, same⟩ := h
    rw [← same]
    exact spelled _ h literal.raw rfl
  | discretion d =>
    obtain ⟨literal, h, same⟩ := h
    rw [← same]
    exact spelled _ h literal.raw rfl
  | _ => trivial

/-- The agents that expansion looks up are statements. -/
theorem Expansion.agents_has {L : Leaf → Prop} {p : Program} (h : BodyHas L p.statements) :
    ∀ a ∈ (ofProgram p).agents, a.Has L := by
  intro a ha
  obtain ⟨s, hs, isAgent⟩ := List.mem_filterMap.1 ha
  cases s with
  | agent b =>
    obtain rfl : b = a := by simpa using isAgent
    exact has_agent.1 (h _ hs)
  | _ => simp at isAgent

/-- What holds of the leaves of a program and of those that expansion makes holds of the canonical
one. -/
theorem Program.canonical_has {L : Leaf → Prop} (made : Leaf.HoldsOfMade L) {p : Program}
    (h : BodyHas L p.statements) : BodyHas L p.canonical.statements := by
  have given : ∀ x ∈ Context.empty.names, L (.name x) := fun _ hx ↦ absurd hx List.not_mem_nil
  exact canonicalBody_has made (Expansion.agents_has h) given p.statements h 0

private theorem Program.canonical_spans (p : Program) :
    p.canonical.statements.map Statement.span = p.statements.map Statement.span :=
  canonicalBody_spans (.ofProgram p) .empty p.statements 0

/-- If the leaves of a program have text and its outermost statements places, then the source map
that comes with its canonical text describes this text. -/
theorem compileCanonical_describes {p : Program} (options : CompileOptions)
    (leaves : BodyHas Leaf.IsSolid p.statements)
    (places : ∀ s ∈ p.statements, s.span.isNowhere = false) :
    (compileCanonical p options).sourceMap.Describes (compileCanonical p options).text.toList := by
  let stripped := if options.stripComments then p.withoutComments else p
  have leaves : BodyHas Leaf.IsSolid stripped.statements := by
    unfold stripped
    split
    · exact bodyHas_withoutComments (fun _ ↦ trivial) leaves
    · exact leaves
  have places : ∀ s ∈ stripped.statements, s.span.isNowhere = false := by
    unfold stripped
    split
    · intro t ht
      obtain ⟨s, hs, same⟩ := exists_span_of_mem_bodyWithoutComments ht
      rw [same]
      exact places s hs
    · exact places
  have canonicalPlaces : ∀ s ∈ stripped.canonical.statements, s.span.isNowhere = false := by
    intro t ht
    have among := List.mem_map_of_mem (f := Statement.span) ht
    rw [Program.canonical_spans] at among
    obtain ⟨s, hs, same⟩ := List.mem_map.1 among
    rw [← same]
    exact places s hs
  have solid : (stripped.canonical.doc options.indentWidth).Solid :=
    bodyDoc_solid _ (Program.canonical_has Leaf.isSolid_made leaves)
  have placed : (stripped.canonical.doc options.indentWidth).Placed :=
    bodyDoc_placed _ canonicalPlaces
  change (stripped.canonical.doc options.indentWidth).sourceMap.Describes
    (stripped.canonical.doc options.indentWidth).render.toList
  rw [Doc.toList_render]
  exact Doc.describes solid placed

/-- Every text is compiled, whatever is wrong with it, and the source map describes what it is
compiled to. -/
theorem compile_sourceMap_describes (source : String) (options : CompileOptions)
    (accepted : ∀ target, options.target = some target → target = canonicalTarget) :
    ∃ c, compile (parse source).program options = .ok c
      ∧ c.sourceMap.Describes c.text.toList := by
  have solid := visible_tokenize_solid source
  have read := isRead_parseTokens (tokenize source).tokens
  refine ⟨compileCanonical (parse source).program options, ?_, ?_⟩
  · have none : options.target.filter (· ≠ canonicalTarget) = none := by
      simpa using accepted
    rw [compile, none]
  · apply compileCanonical_describes
    · intro s hs
      have spelled (t : Token) (ht : t ∈ visible (tokenize source).tokens) := (solid t ht).2
      exact (read s hs).1.imp fun l hl ↦ hl.isSolid spelled
    · intro s hs
      obtain ⟨t, ht, start⟩ := (read s hs).2
      have line := (solid t ht).1
      rw [← start] at line
      apply decide_eq_false
      intro nowhere
      rw [nowhere] at line
      exact absurd line (by decide)

/-- A text with a stray bracket in it is compiled too. -/
theorem compile_sourceMap_describes_stray :
    let source := "let é = [1,\n  \"\"\"a\nb\"\"\"]\n)\nsession \"{é}\"\n"
    let options : CompileOptions := { target := some "canonical", indentWidth := 0 }
    (parse source).hasErrors = true
      ∧ (∀ target, options.target = some target → target = canonicalTarget)
      ∧ ∃ c, compile (parse source).program options = .ok c
        ∧ c.sourceMap.Describes c.text.toList := by
  intro source options
  have faulty : (parse source).hasErrors = true := by decide +kernel
  have accepted (target : String) (asked : options.target = some target) :
      target = canonicalTarget := by
    cases asked
    rfl
  exact ⟨faulty, accepted, compile_sourceMap_describes source options accepted⟩

end ProseLang
