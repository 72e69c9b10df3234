import ProseLang.Proofs.Grammar.Source
import ProseLang.Proofs.Token.Resume

/-!
# Recovery from errors is local

A text that ends its last line is read the same whatever text without errors follows it, and what
follows is read as it is alone (`statements_parse_append_iff`). The one exception is a statement
that fails after the block of its own, with only comments left after it: going on after it leaves
out the first statement of what follows.
-/

namespace ProseLang

/-- The number of brackets that a source text leaves open. -/
def openBrackets (source : String) : Nat := (finalLayout source.toList).depth

/-- Whether reading a source text comes to a statement that fails where only comments are left. -/
def FailsLate (source : String) : Prop :=
  Parser.FailsLate ((Nested.upTo (depthOf source)).statement true) (startOf source)

variable {source more : String}

/-- A source text without errors has neither of the two kinds. -/
theorem errors_of_hasErrors (h : (parse source).hasErrors = false) :
    (parse source).errors = [] ∧ (parse source).lexErrors = [] := by
  simpa [Parsed.hasErrors] using h

/-- The cursor at the start has all tokens of the source text ahead. -/
theorem readTokens_rest (source : String) : (startOf source).rest = readTokens source := by
  rw [startOf_eq]

/-- A text without errors starts with a comment or a statement at the left margin. -/
theorem starts_of_hasErrors (h : (parse source).hasErrors = false) :
    ∀ t ∈ (tokensOf source.toList).find? (!·.kind.isComment), t.kind.startsStatement = true := by
  obtain ⟨errors, lexErrors⟩ := errors_of_hasErrors h
  intro t ht
  have newline : startsWithNewline (tokensOf source.toList) = false :=
    startsWithNewline_runLayout rfl rfl rfl
  refine starts_of_errors_nil (starts_startOf source lexErrors).toStands
    (Nat.lt_succ_self _) errors t
    ?_ ?_
  · rw [readTokens_rest, readTokens, find?_withoutTrailingComments]
    exact ht
  · simpa [startsWithNewline, Option.mem_def.1 ht] using newline

/-- The tokens that are read of two texts, one after the other. -/
theorem readTokens_append (ends : endsLine source.toList = true)
    (clean : (parse source).lexErrors = []) (closed : openBrackets source = 0)
    (h : (parse more).hasErrors = false) :
    recast .bare (readTokens (source ++ more)) = recast .bare
    (readTokens source ++ readTokens more) := by
  have starts : ∀ u ∈ (tokensOf more.toList).find? (!·.kind.isComment),
      u.kind ≠ .indent ∧ u.kind ≠ .symbol .pipe := fun u hu ↦ by
    have := starts_of_hasErrors h u hu
    constructor <;> intro hk <;> simp [hk, TokenKind.startsStatement] at this
  have tokens := tokensOf_append ends clean closed (errors_of_hasErrors h).2 starts
  calc recast .bare (readTokens (source ++ more))
      = withoutTrailingComments none (recast .bare (tokensOf (source.toList ++ more.toList))) := by
        rw [readTokens, String.toList_append, ← withoutTrailingComments_bare]
        rfl
    _ = recast .bare (withoutTrailingComments none
      (tokensOf source.toList ++ tokensOf more.toList)) := by
        rw [tokens, ← withoutTrailingComments_bare]
        rfl
    _ = recast .bare (readTokens source ++ readTokens more) := by
        rw [withoutTrailingComments_append_of_lined (lined_tokensOf source.toList).1]
        rfl

/-- Two texts one after the other start a stream. -/
theorem starts_startOf_append (ends : endsLine source.toList = true)
    (clean : (parse source).lexErrors = []) (closed : openBrackets source = 0)
    (h : (parse more).hasErrors = false) : (startOf (source ++ more)).Starts := by
  obtain ⟨laid, opens⟩ := laid_readTokens (source ++ more)
  have tokens := readTokens_append ends clean closed h
  have valid : ∀ source, (parse source).lexErrors = [] →
    ∀ t ∈ readTokens source, t.kind ≠ .invalid :=
    fun source h t ht ↦ kind_ne_invalid h (mem_of_mem_withoutTrailingComments ht)
  have rejected : (readTokens (source ++ more)).filter (·.kind = .invalid) = [] := by
    refine List.filter_eq_nil_iff.2 fun t ht hk ↦ ?_
    have : recast .bare t ∈ recast .bare (readTokens source ++ readTokens more) :=
      tokens ▸ List.mem_map_of_mem ht
    obtain ⟨u, hu, same⟩ := List.mem_map.1 this
    have kinds : u.kind = .invalid := by
      rw [← bare_eq_iff (by simp), ← kind_recast, same, kind_recast, bare_eq_iff (by simp)]
      simpa using hk
    rcases List.mem_append.1 hu with hu | hu
    · exact valid source clean u hu kinds
    · exact valid more (errors_of_hasErrors h).2 u hu kinds
  rw [startOf_eq, rejected]
  exact ⟨⟨laid, rfl, rfl, opens⟩, rfl, rfl⟩

/-- A text that does not fail late is read as it is alone, and so is what follows it. -/
theorem parse_append (ends : endsLine source.toList = true) (clean : (parse source).lexErrors = [])
    (closed : openBrackets source = 0) (h : (parse more).hasErrors = false)
    (notLate : ¬ FailsLate source) :
    recast .bare (parse (source ++ more)).program.statements
        = recast .bare (parse source).program.statements ++ recast .bare
        (parse more).program.statements
      ∧ recast .bare (parse (source ++ more)).errors = recast .bare (parse source).errors := by
  have starts := starts_of_hasErrors h
  obtain ⟨errors, lexErrors⟩ := errors_of_hasErrors h
  have read := readAll_append (m := depthOf source) (n := depthOf more)
    (k := depthOf (source ++ more)) (starts_startOf source clean) (starts_startOf more lexErrors)
    (starts_startOf_append ends clean closed h)
    (by simpa only [readTokens_rest] using readTokens_append ends clean closed h)
    (by rwa [readTokens_rest, readTokens, find?_withoutTrailingComments])
    (Nat.le_succ _) (Nat.le_succ _) (Nat.le_succ _) notLate
  rw [← parse_statements, ← parse_statements, ← parse_statements, ← parse_errors, ← parse_errors,
    ← parse_errors, errors] at read
  exact ⟨read.1, by simpa using read.2⟩

/-- A text that fails late takes a statement of one line with it. -/
theorem parse_append_of_failsLate (ends : endsLine source.toList = true)
    (clean : (parse source).lexErrors = []) (closed : openBrackets source = 0)
    (h : (parse more).hasErrors = false)
    (short : Cursor.failedLength 0 (readTokens more) = (readTokens more).length)
    (late : FailsLate source) :
    recast .bare (parse (source ++ more)).program.statements = recast .bare
    (parse source).program.statements := by
  have read := readAll_append_of_failsLate (q := startOf more) (m := depthOf source)
    (k := depthOf (source ++ more)) (starts_startOf source clean)
    (starts_startOf_append ends clean closed h)
    (by simpa only [readTokens_rest] using readTokens_append ends clean closed h)
    (by rw [readTokens_rest, readTokens, find?_withoutTrailingComments]; exact starts_of_hasErrors h)
    (Nat.le_succ _) (Nat.le_succ _) (by rwa [readTokens_rest]) late
  rwa [← parse_statements, ← parse_statements] at read

/-- Reading is local after a text that ends its last line, has no lexical error and closes its
brackets, just when no statement of it fails where only comments are left. -/
theorem statements_parse_append_iff (ends : source.toList.getLast? = some '\n')
    (clean : (parse source).lexErrors = []) (closed : openBrackets source = 0) :
    (∀ more, (parse more).hasErrors = false →
        unplaced (parse (source ++ more)).program.statements
            = unplaced (parse source).program.statements ++ unplaced (parse more).program.statements
          ∧ (parse (source ++ more)).errors.length = (parse source).errors.length)
      ↔ ¬ FailsLate source := by
  have line : endsLine source.toList = true := by simp [endsLine, ends]
  constructor
  · intro isLocal late
    have clean' : (parse "throw\n").hasErrors = false := by decide +kernel
    have one : (parse "throw\n").program.statements.length = 1 := by decide +kernel
    have short : Cursor.failedLength 0 (readTokens "throw\n") = (readTokens "throw\n").length := by
      decide +kernel
    have both := congrArg List.length (isLocal "throw\n" clean').1
    rw [unplaced, unplaced, unplaced, parse_append_of_failsLate line clean closed clean' short late,
      List.length_append, length_bare_body (parse "throw\n").program.statements, one] at both
    omega
  · intro notLate more h
    obtain ⟨statements, errors⟩ := parse_append line clean closed h notLate
    exact ⟨statements, by simpa using congrArg List.length errors⟩

/-- A session with a property that is rejected takes the session after it along. -/
theorem parse_append_after_rejected_property :
    let source := "session \"a\":\n  retry: \"x\"\n"
    let more := "session \"b\"\n"
    source.toList.getLast? = some '\n' ∧ (parse source).lexErrors = [] ∧ openBrackets source = 0
      ∧ (parse more).hasErrors = false
      ∧ unplaced (parse (source ++ more)).program.statements
        ≠ unplaced (parse source).program.statements ++ unplaced
          (parse more).program.statements := by
  have swallowed : (parse ("session \"a\":\n  retry: \"x\"\n" ++
    "session \"b\"\n")).program.statements.length
      = 0 := by decide +kernel
  have alone : (parse "session \"b\"\n").program.statements.length = 1 := by decide +kernel
  refine ⟨by decide +kernel, by decide +kernel, by decide +kernel, by decide +kernel, fun same ↦ ?_⟩
  have lengths := congrArg List.length same
  rw [length_bare_body, swallowed, List.length_append, length_bare_body, length_bare_body, alone]
    at lengths
  omega

/-- A text without errors does not fail late. -/
theorem not_failsLate_of_hasErrors (h : (parse source).hasErrors = false) : ¬ FailsLate source := by
  obtain ⟨errors, lexErrors⟩ := errors_of_hasErrors h
  exact fun late ↦ errors_of_failsLate (starts_startOf source lexErrors).toStands
    (Nat.le_succ _) late
    errors

/-- Reading goes on after a binding without a name, and what follows is read as it is alone. -/
theorem statements_parse_append_recovered :
    let source := "let = 1\nthrow\n"
    (parse source).errors.length = 1 ∧ (parse source).program.statements.length = 1
      ∧ ¬ FailsLate source ∧ ∀ more, (parse more).hasErrors = false →
        unplaced (parse (source ++ more)).program.statements
            = unplaced (parse source).program.statements ++ unplaced (parse more).program.statements
          ∧ (parse (source ++ more)).errors.length = (parse source).errors.length := by
  intro source
  have notLate : ¬ FailsLate source :=
    Parser.not_failsLate_of_first (by decide +kernel) <|
      Parser.not_failsLate_of_first (by decide +kernel) <|
        Parser.not_failsLate_at_end (by decide +kernel) (by decide +kernel)
  exact ⟨by decide +kernel, by decide +kernel, notLate,
    (statements_parse_append_iff (by decide +kernel) (by decide +kernel) (by decide +kernel)).2
      notLate⟩

end ProseLang
