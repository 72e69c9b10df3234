import Mathlib.Data.List.Chain
import ProseLang.Proofs.Grammar.Comparison
import ProseLang.Proofs.Token.Comments

/-!
# Reading without comments

Comments do not change how code is read: the tokens of a text without comments are read as the same
program, without its comments, and with the same errors (`parseTokens_tokenizeCode`). There are two
exceptions. An arrow after a comment on a line of its own does not go on with the session before it;
and a production that looks for something where such a comment stands reports the comment.
-/

namespace ProseLang

/-! ## Where comments are left out -/

section Tidy

variable {k : Likeness} {ts : List Token}

private theorem head?_withoutTrailingComments {kept : Option TokenKind}
    (h : kept.all TokenKind.beforeOwnLine = true) :
    (withoutTrailingComments kept ts).head? = ts.head? := by
  have none : kept.any (!·.beforeOwnLine) = false := by
    cases kept <;> simp_all
  cases ts with
  | nil => rfl
  | cons t ts => simp [withoutTrailingComments, none]

/-- The comments that the grammar reads stand where they may be left out. -/
theorem tidy_withoutTrailingComments (drops : k.drops = true) {kept previous : Option TokenKind}
    {begun : Bool} (hlead : CommentsLead previous begun ts)
    (same : kept.all TokenKind.beforeOwnLine = previous.all TokenKind.beforeOwnLine)
    (apart : ∀ t ∈ ts, t.kind.isComment = true → t.span ∉ k.rejected)
    (arrows : (withoutTrailingComments kept ts).IsChain
      fun t u ↦ t.kind.isComment = true → u.kind ≠ .symbol .arrow) :
    k.Tidy previous begun (withoutTrailingComments kept ts) := by
  induction ts generalizing kept previous begun with
  | nil => trivial
  | cons t ts ih =>
    obtain ⟨first, rest⟩ := List.forall_mem_cons.1 apart
    rw [CommentsLead] at hlead
    rw [withoutTrailingComments] at arrows ⊢
    split at arrows
    · next trailing =>
      rw [if_pos trailing]
      rw [if_pos (Bool.and_eq_true_iff.1 trailing).1] at hlead
      exact ih hlead.2 same rest arrows
    · next stays =>
      rw [if_neg stays, Likeness.Tidy]
      have after := List.isChain_cons.1 arrows
      cases hk : t.kind.isComment with
      | true =>
        rw [if_pos hk] at hlead
        have ownLine : kept.all TokenKind.beforeOwnLine = true := by
          cases kept <;> simp_all
        have within : t.kind.beforeOwnLine = true := by
          generalize t.kind = kind at hk
          cases kind <;> first | rfl | cases hk
        have omits : k.omits t = true := by rw [Likeness.omits, drops, hk]; rfl
        rw [if_pos omits]
        refine ⟨same ▸ ownLine, first hk, fun u hu ↦ ?_,
          ih hlead.2 (within.trans (ownLine.symm.trans same)) rest after.2⟩
        have kept : (some t.kind).all TokenKind.beforeOwnLine = true := within
        have head := head?_withoutTrailingComments kept ▸ hu
        obtain ⟨layout, bar⟩ := hlead.1 (same ▸ ownLine) u head
        exact ⟨layout, after.1 u hu hk, bar⟩
      | false =>
        have omits : k.omits t = false := by rw [Likeness.omits, hk, Bool.and_false]
        rw [if_neg (by simp [hk])] at hlead
        rw [if_neg (by simp [omits])]
        exact ih hlead rfl rest after.2

end Tidy

/-! ## Tokens of a source text -/

section Source

variable (source : String)

private theorem filter_withoutTrailingComments {ts : List Token} {kept : Option TokenKind} :
    (withoutTrailingComments kept ts).filter (!·.kind.isComment) = ts.filter
    (!·.kind.isComment) := by
  induction ts generalizing kept with
  | nil => rfl
  | cons t ts ih =>
    rw [withoutTrailingComments]
    split
    · next trailing => simp [(Bool.and_eq_true_iff.1 trailing).1, ih]
    · simp only [List.filter_cons, ih]

private theorem withoutTrailingComments_of_none {ts : List Token} {kept : Option TokenKind}
    (h : ∀ t ∈ ts, t.kind.isComment = false) : withoutTrailingComments kept ts = ts := by
  induction ts generalizing kept with
  | nil => rfl
  | cons t ts ih =>
    obtain ⟨first, rest⟩ := List.forall_mem_cons.1 h
    rw [withoutTrailingComments, first]
    simp [ih rest]

/-- Without comments, the stream of a text starts with the same tokens but for those. -/
theorem ofTokens_tokenizeCode :
    Cursor.ofTokens (withoutTrailingComments none (tokenizeCode source).tokens)
      = { rest := (readTokens source).filter (!·.kind.isComment)
          final := ⟨.endOfFile, .point (Position.start.after source.toList)⟩
          rejected := rejectedSpans source } := by
  have tokens : withoutTrailingComments none (tokenizeCode source).tokens
      = (readTokens source).filter (!·.kind.isComment)
        ++ [⟨.endOfFile, .point (Position.start.after source.toList)⟩] := by
    rw [withoutTrailingComments_of_none fun t ht ↦ by simpa using (List.mem_filter.1 ht).2]
    change (tokenizeChars source.toList).tokens.filter _ = _
    rw [tokens_tokenizeChars, List.filter_append, readTokens, filter_withoutTrailingComments]
    rfl
  have inside : ∀ t ∈ (readTokens source).filter (!·.kind.isComment), t.kind ≠ .endOfFile :=
    fun t ht ↦ (laid_readTokens source).1.kind_ne_endOfFile (List.mem_filter.1 ht).1
  have before : ((readTokens source).filter (!·.kind.isComment)).find?
    (·.kind = .endOfFile) = none :=
    List.find?_eq_none.2 fun t ht ↦ by simpa using inside t ht
  have same : ((readTokens source).filter (!·.kind.isComment)).filter (·.kind = .invalid)
      = (readTokens source).filter (·.kind = .invalid) := by
    rw [List.filter_filter]
    refine List.filter_congr fun t _ ↦ ?_
    cases t.kind <;> simp [TokenKind.isComment]
  rw [tokens, Cursor.ofTokens, List.takeWhile_append_of_pos (by simpa using inside),
    List.find?_append, before, List.filter_append, same]
  simp [rejectedSpans]

/-! ## Reading -/

/-- A text is compared to itself without comments. -/
def Likeness.uncommenting : Likeness :=
  .ofSources source source (fun _ ↦ none) true (fun _ ↦ iff_of_true rfl rfl) id

/-- A text and its tokens without comments are read alike. -/
theorem abreast_startOf (arrows : (readTokens source).IsChain
      fun t u ↦ t.kind.isComment = true → u.kind ≠ .symbol .arrow) :
    Abreast (.uncommenting source) (.loose false) (startOf source)
      (.ofTokens (withoutTrailingComments none (tokenizeCode source).tokens)) := by
  rw [startOf_eq, ofTokens_tokenizeCode]
  exact {
    rest := List.forall₂_same.2 fun t ht ↦ by
      obtain ⟨mem, plain⟩ := List.mem_filter.1 ht
      refine pairs_ofSources mem mem (like_of_bare rfl) fun text _ hk ↦ ?_
      simp [Likeness.omits, Likeness.uncommenting, Likeness.ofSources, hk, TokenKind.isComment]
        at plain
    final := pairs_endOfFile _ _
    final_kind := rfl
    errors := rfl
    rejected := rfl
    rejected' := rfl
    tidy := by
      refine ⟨none, false, tidy_withoutTrailingComments rfl (lead_tokensOf _) rfl
        (fun t ht hk rejected ↦ ?_) arrows, nofun⟩
      have plain : t.kind.isLayout = false := by
        generalize t.kind = kind at hk
        cases kind <;> first | rfl | cases hk
      have mem : t ∈ (tokenize source).tokens := by
        rw [tokenize, tokens_tokenizeChars]
        exact List.mem_append_left _ ht
      rw [kind_of_rejected mem plain rejected rfl] at hk
      cases hk
    ready := nofun
    even := nofun
    begun := nofun
    ahead := List.nil_prefix }

private theorem commentsOf_of_none {ts : List Token} (h : ∀ t ∈ ts, t.kind.isComment = false) :
    commentsOf ts = [] := by
  rw [commentsOf, List.filterMap_eq_nil_iff.2 ?_]
  · simp
  · intro t ht
    have plain := h t ht
    obtain ⟨kind, span⟩ := t
    cases kind <;> first | rfl | cases plain

/-- Without its comments a text is read as the same program, with the same errors, where no comment
stands before an arrow and no error names a comment. -/
theorem parseTokens_tokenizeCode
    (arrows : (readTokens source).IsChain fun t u ↦
      t.kind.isComment = true → u.kind ≠ .symbol .arrow)
    (found : ∀ e ∈ (parse source).errors, e.fault.findsComment = false) :
    (parseTokens (tokenizeCode source).tokens).errors.map ParseError.fault
        = (parse source).errors.map ParseError.fault
      ∧ unplaced (parseTokens (tokenizeCode source).tokens).program
        = unplaced (uncommented (parse source).program) := by
  rcases parseTokens_ofSources (abreast_startOf source arrows) with
    ⟨e, known, -, finds⟩ | ⟨errors, statements⟩
  · rw [found e known] at finds
    cases finds
  refine ⟨errors, ?_⟩
  have comments : commentsOf (tokenizeCode source).tokens = [] :=
    commentsOf_of_none fun t ht ↦ by simpa using (List.mem_filter.1 ht).2
  change Program.mk _ (recast .bare (commentsOf _)) .nowhere
    = ⟨_, recast .bare (List.filterMap (fun _ ↦ none) _), .nowhere⟩
  rw [comments, List.filterMap_none]
  exact congrArg (Program.mk · [] .nowhere) statements

end Source

/-- A comment at the end of a line and one between a block and the clause after it. -/
theorem parseTokens_tokenizeCode_handler :
    let source := "try:\n  session \"a\" # now\n# or else\ncatch:\n  session \"b\"\n"
    ((tokenize source).tokens.filter (·.kind.isComment)).length = 2
      ∧ (parseTokens (tokenizeCode source).tokens).errors.map ParseError.fault
        = (parse source).errors.map ParseError.fault
      ∧ unplaced (parseTokens (tokenizeCode source).tokens).program
        = unplaced (uncommented (parse source).program) :=
  ⟨by decide +kernel, parseTokens_tokenizeCode _ (by decide +kernel) (by decide +kernel)⟩

/-- What a loop goes over ends with a block, and a comment stands before the colon after it. -/
theorem parseTokens_tokenizeCode_colon :
    let source := "for x in do:\n  session \"i\"\n# c\n:\n  session \"b\"\n"
    (parse source).errors.map ParseError.fault = [.unexpected "':'" "comment"]
      ∧ (parse source).program.statements.length = 0
      ∧ (parseTokens (tokenizeCode source).tokens).errors.map ParseError.fault = []
      ∧ (parseTokens (tokenizeCode source).tokens).program.statements.length = 1 := by
  decide +kernel

/-- An arrow after a comment goes on with nothing. -/
example :
    let source := "session \"a\":\n  retry: 1\n# note\n-> session \"b\"\n"
    (parse source).errors.map ParseError.fault = [.unexpected "a statement" "'->'"]
      ∧ (parse source).program.statements.length = 2
      ∧ (parseTokens (tokenizeCode source).tokens).errors.map ParseError.fault = []
      ∧ (parseTokens (tokenizeCode source).tokens).program.statements.length = 2 := by
  decide +kernel

end ProseLang
