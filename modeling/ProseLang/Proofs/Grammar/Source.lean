import ProseLang.Grammar.Parsing
import ProseLang.Proofs.Grammar.Recovery
import ProseLang.Proofs.Token.Layout

/-!
# Streams of source texts

What the grammar reads of a source text is its tokens without the comments at the ends of lines.
They are a stream with layout that opens no block from outside (`laid_withoutTrailingComments`),
so a text without lexical errors starts a stream (`Starts`).
-/

namespace ProseLang

section TrailingComments

variable {k k' : Option TokenKind} {ts us : List Token}

/-- All that matters of the token before is whether a comment after it is on its own line. -/
theorem withoutTrailingComments_congr
    (h : k.any (!·.beforeOwnLine) = k'.any (!·.beforeOwnLine)) :
    withoutTrailingComments k ts = withoutTrailingComments k' ts := by
  induction ts with
  | nil => rfl
  | cons t ts ih => rw [withoutTrailingComments, withoutTrailingComments, h, ih]

/-- Tokens one after the other, with the last one that is left before the second ones. -/
theorem withoutTrailingComments_append :
    withoutTrailingComments k (ts ++ us) = withoutTrailingComments k ts
      ++ withoutTrailingComments
        (((withoutTrailingComments k ts).getLast?.map Token.kind).or k) us := by
  induction ts generalizing k with
  | nil => rfl
  | cons t ts ih =>
    rw [List.cons_append, withoutTrailingComments, withoutTrailingComments]
    split
    · exact ih
    · rw [ih, List.cons_append, List.getLast?_cons]
      cases (withoutTrailingComments (some t.kind) ts).getLast? <;> rfl

private theorem beforeOwnLine_bare (kind : TokenKind) :
    (recast .bare kind).beforeOwnLine = kind.beforeOwnLine := by
  cases kind <;> rfl

/-- Which comments are left does not depend on places. -/
theorem withoutTrailingComments_bare :
    withoutTrailingComments (recast .bare k) (recast .bare ts)
      = recast .bare (withoutTrailingComments k ts) := by
  have trailing : ∀ k : Option TokenKind,
      (recast .bare k).any (!·.beforeOwnLine) = k.any (!·.beforeOwnLine) := fun k ↦ by
    cases k <;> simp [beforeOwnLine_bare]
  induction ts generalizing k with
  | nil => rfl
  | cons t ts ih =>
    rw [recast_cons, withoutTrailingComments, withoutTrailingComments, trailing, kind_recast,
      isComment_recast]
    split
    · exact ih
    · rw [recast_cons, ← ih]
      rfl

/-- The first token that is no comment stays the first. -/
theorem find?_withoutTrailingComments :
    (withoutTrailingComments k ts).find? (!·.kind.isComment) = ts.find? (!·.kind.isComment) := by
  induction ts generalizing k with
  | nil => rfl
  | cons t ts ih =>
    rw [withoutTrailingComments]
    cases ht : t.kind.isComment <;> split <;> simp_all

/-- Without the comments at the ends of lines, a line that has a token has an end. -/
theorem laid_withoutTrailingComments (h : Lined ts) :
    Laid (withoutTrailingComments k ts)
      ∧ openBlocks (withoutTrailingComments k ts) = openBlocks ts
      ∧ (k.any (!·.beforeOwnLine) = true → onlyComments ts = false →
        startsPlainly (withoutTrailingComments k ts) = true) := by
  induction ts generalizing k with
  | nil => exact ⟨trivial, rfl, by simp [onlyComments]⟩
  | cons t ts ih =>
    obtain ⟨hend, hindent, hplain, h⟩ := h
    rw [withoutTrailingComments]
    split
    · next trailing =>
      obtain ⟨comment, -⟩ := Bool.and_eq_true_iff.1 trailing
      obtain ⟨laid, opens, starts⟩ := ih h (k := k)
      have flat := TokenKind.flat_of_isComment comment
      refine ⟨laid, opens.trans (openBlocks_cons_of_flat _ flat.2.2.1 flat.2.2.2).symm, ?_⟩
      rw [onlyComments_cons, comment, Bool.true_and]
      exact starts
    · next kept =>
      obtain ⟨laid, opens, starts⟩ := ih h (k := some t.kind)
      refine ⟨⟨hend, ?_, ?_, laid⟩, ?_, fun before _ ↦ ?_⟩
      · rw [opens]
        exact hindent
      · intro plain
        refine starts ?_ (hplain plain)
        generalize t.kind = kind at plain
        cases kind <;> first | contradiction | rfl
      · simp only [openBlocks, opens]
      · rw [before, Bool.and_true] at kept
        simpa [startsPlainly] using kept

/-- A comment after the last token of a stream is on a line of its own. -/
theorem Laid.beforeOwnLine_of_getLast? {t : Token} (h : Laid ts) (ht : ts.getLast? = some t) :
    t.kind.beforeOwnLine = true := by
  obtain ⟨before, rfl⟩ := List.getLast?_eq_some_iff.1 ht
  have laid := h.suffix (List.suffix_append before [t])
  obtain ⟨hend, hindent, hplain, -⟩ := laid
  generalize t.kind = kind at *
  cases kind <;> simp_all [TokenKind.isPlain, TokenKind.isLayout, TokenKind.isComment,
    TokenKind.beforeOwnLine, startsPlainly]

/-- Comments at the ends of lines are left out of two streams as they are out of each. -/
theorem withoutTrailingComments_append_of_lined (h : Lined ts) :
    withoutTrailingComments none (ts ++ us)
      = withoutTrailingComments none ts ++ withoutTrailingComments none us := by
  have laid := (laid_withoutTrailingComments (k := none) h).1
  rw [withoutTrailingComments_append]
  congr 1
  apply withoutTrailingComments_congr
  cases hl : (withoutTrailingComments none ts).getLast? with
  | none => rfl
  | some t => simp [laid.beforeOwnLine_of_getLast? hl]

end TrailingComments

/-! ## The start of a source text -/

/-- The cursor at the start of a source text. -/
def startOf (source : String) : Cursor :=
  .ofTokens (withoutTrailingComments none (tokenize source).tokens)

/-- The tokens that the grammar reads of a source text. -/
def readTokens (source : String) : List Token :=
  withoutTrailingComments none (tokensOf source.toList)

/-- The end of the file is not among the tokens of a stream. -/
theorem Laid.kind_ne_endOfFile {ts : List Token} {t : Token} (h : Laid ts) (ht : t ∈ ts) :
    t.kind ≠ .endOfFile := by
  obtain ⟨a, b, rfl⟩ := List.append_of_mem ht
  exact (h.suffix (List.suffix_append a _)).1

/-- Tokens that are left are among the tokens. -/
theorem mem_of_mem_withoutTrailingComments {prev : Option TokenKind} {ts : List Token} {t : Token}
    (h : t ∈ withoutTrailingComments prev ts) : t ∈ ts := by
  induction ts generalizing prev with
  | nil => exact h
  | cons u ts ih =>
    rw [withoutTrailingComments] at h
    split at h
    · exact List.mem_cons_of_mem _ (ih h)
    · rcases List.mem_cons.1 h with rfl | h
      · exact List.mem_cons_self
      · exact List.mem_cons_of_mem _ (ih h)

variable (source : String)

/-- The tokens of a source text close every block that they open. -/
theorem laid_readTokens : Laid (readTokens source) ∧ openBlocks (readTokens source) = 0 := by
  obtain ⟨lined, opens⟩ := lined_tokensOf source.toList
  obtain ⟨laid, same, -⟩ := laid_withoutTrailingComments (k := none) lined
  exact ⟨laid, same.trans opens⟩

/-- The cursor at the start, field by field. -/
theorem startOf_eq :
    startOf source =
      { rest := readTokens source
        final := ⟨.endOfFile, .point (Position.start.after source.toList)⟩
        rejected := ((readTokens source).filter (·.kind = .invalid)).map Token.span } := by
  have tokens : withoutTrailingComments none (tokenize source).tokens
      = readTokens source ++ [⟨.endOfFile, .point (Position.start.after source.toList)⟩] := by
    rw [tokenize, tokens_tokenizeChars,
      withoutTrailingComments_append_of_lined (lined_tokensOf source.toList).1]
    rfl
  have inside : ∀ t ∈ readTokens source, t.kind ≠ .endOfFile := fun t ht ↦
    (laid_readTokens source).1.kind_ne_endOfFile ht
  have before : (readTokens source).find? (·.kind = .endOfFile) = none :=
    List.find?_eq_none.2 fun t ht ↦ by simpa using inside t ht
  rw [startOf, tokens, Cursor.ofTokens, List.takeWhile_append_of_pos (by simpa using inside),
    List.find?_append, before, List.filter_append]
  simp

/-- A text without lexical errors starts a stream. -/
theorem starts_startOf (h : (parse source).lexErrors = []) : (startOf source).Starts := by
  obtain ⟨laid, opens⟩ := laid_readTokens source
  have rejected : (readTokens source).filter (·.kind = .invalid) = [] :=
    List.filter_eq_nil_iff.2 fun t ht ↦ by
      simpa using kind_ne_invalid h (mem_of_mem_withoutTrailingComments ht)
  rw [startOf_eq, rejected]
  exact ⟨⟨laid, rfl, rfl, opens⟩, rfl, rfl⟩

/-- The number of nested parsers that a source text is read with. -/
def depthOf : Nat := (startOf source).rest.length + 1

/-- The statements of a source text are read from its start. -/
theorem parse_statements :
    (parse source).program.statements = (readAll (depthOf source) (startOf source)).1.1 := rfl

/-- The errors of a source text are on record when it is read. -/
theorem parse_errors :
    (parse source).errors = (readAll (depthOf source) (startOf source)).2.errors := rfl

end ProseLang
