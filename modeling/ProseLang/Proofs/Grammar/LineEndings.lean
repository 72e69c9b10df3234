import ProseLang.Proofs.Grammar.Comparison
import ProseLang.Proofs.Token.LineEndings

/-!
# Line endings and programs

A text with carriage returns before its line feeds is read as the same program, with the same
errors, if its literals keep to a line. Only a comment that a line feed ends is told apart: it takes
the return along (`parse_textWithReturns`).
-/

namespace ProseLang

/-- A source text with a carriage return before every line feed. -/
def textWithReturns (source : String) : String := String.ofList (withReturns source.toList)

/-! ## Comments at the ends of lines -/

section TrailingComments

variable (stop : Position) {t : Token} {ts : List Token}

private theorem kind_withReturn (t : Token) : (t.withReturn stop).kind.isComment = t.kind.isComment
    ∧ (t.withReturn stop).kind.beforeOwnLine = t.kind.beforeOwnLine := by
  obtain ⟨kind, span⟩ := t
  cases kind <;> exact ⟨rfl, rfl⟩

/-- Which comments are at the ends of lines does not depend on what they say. -/
theorem withoutTrailingComments_withReturn (k : Option TokenKind) :
    withoutTrailingComments k (ts.map (Token.withReturn stop))
      = (withoutTrailingComments k ts).map (Token.withReturn stop) := by
  induction ts generalizing k with
  | nil => rfl
  | cons t ts ih =>
    obtain ⟨comment, ownLine⟩ := kind_withReturn stop t
    rw [List.map_cons, withoutTrailingComments, withoutTrailingComments, comment]
    split
    · exact ih k
    · rw [List.map_cons, ← ih]
      congr 1
      exact withoutTrailingComments_congr (by simp [ownLine])

end TrailingComments

/-! ## The recorded comments -/

/-- The comment that a token is. -/
def Token.comment? : Token → Option Comment
  | ⟨.comment text, span⟩ => some ⟨text, span⟩
  | _ => none

/-- Comments of tokens in order stand one after the other. -/
theorem pairwise_comments {ts : List Token} (h : InOrder ts) :
    (ts.filterMap Token.comment?).Pairwise fun a b ↦ a.span.start.offset < b.span.start.offset := by
  refine List.pairwise_filterMap.2 ?_
  refine (List.pairwise_filter.1 h.ordered).imp_of_mem fun {a b} ha hb later x hx y hy ↦ ?_
  unfold Token.comment? at hx hy
  split at hx
  · split at hy
    · cases hx
      cases hy
      have room := h.nonempty _ (mem_visible.2 ⟨ha, rfl⟩)
      exact Nat.lt_of_lt_of_le room (later rfl rfl)
    · cases hy
  · cases hx

/-- Comments of tokens in order stand in their order. -/
theorem commentsOf_of_inOrder {ts : List Token} (h : InOrder ts) :
    commentsOf ts = ts.filterMap Token.comment? :=
  List.mergeSort_of_pairwise ((pairwise_comments h).imp fun before ↦
    decide_eq_true (Nat.le_of_lt before))

private theorem comment?_withReturn (stop : Position) (t : Token) :
    (t.withReturn stop).comment? = t.comment?.map (Comment.withReturn stop) := by
  obtain ⟨kind, span⟩ := t
  cases kind with
  | comment text =>
    simp only [Token.withReturn, Token.comment?, Option.map_some, Comment.withReturn]
    split <;> rfl
  | _ => rfl

private theorem comment?_bare (t : Token) :
    (recast .bare t).comment? = t.comment?.bind Recast.bare.comment := by
  obtain ⟨kind, span⟩ := t
  cases kind <;> rfl

/-! ## Reading -/

section Sources

variable {source : String} (plain : '\r' ∉ source.toList)
  (within : ∀ t ∈ (tokenize source).tokens,
    t.kind.isLiteral = true → t.span.start.line = t.span.stop.line)

include plain within

/-- The same tokens are read, but for the ends of comments. -/
theorem readTokens_withReturns :
    recast .bare (readTokens (textWithReturns source))
      = recast .bare ((readTokens source).map
        (Token.withReturn (Position.start.after source.toList))) := by
  have tokens := (tokensOf_withReturns plain (single_of_tokens within)).1
  rw [readTokens, readTokens, textWithReturns, String.toList_ofList,
    ← withoutTrailingComments_withReturn]
  have left (ts : List Token) : recast .bare (withoutTrailingComments none ts)
      = withoutTrailingComments none (recast .bare ts) := withoutTrailingComments_bare.symm
  rw [left, left, tokens]

private theorem rejectedSpans_withReturns :
    rejectedSpans (textWithReturns source) = [] → rejectedSpans source = [] := by
  intro none
  rw [rejectedSpans, List.map_eq_nil_iff, List.filter_eq_nil_iff] at none ⊢
  intro t ht invalid
  have invalid := of_decide_eq_true invalid
  have mem : recast .bare t ∈ recast .bare (readTokens (textWithReturns source)) := by
    rw [readTokens_withReturns plain within]
    refine List.mem_map.2 ⟨t, List.mem_map.2 ⟨t, ht, ?_⟩, rfl⟩
    exact Token.withReturn_of_isComment _ (by rw [invalid]; rfl)
  obtain ⟨t', ht', same⟩ := List.mem_map.1 mem
  refine none t' ht' (decide_eq_true ?_)
  have invalid' : recast .bare t'.kind = .invalid := by
    rw [← kind_recast, same, kind_recast, invalid]
    rfl
  exact (bare_eq_iff (by simp)).1 invalid'

/-- The tokens that are read of the two texts say the same one by one. -/
theorem pairs_withReturns : List.Forall₂
    (Likeness.ofSources source (textWithReturns source)
      (fun c ↦ some (c.withReturn (Position.start.after source.toList))) false
      (fun _ ↦ iff_of_false nofun nofun) (rejectedSpans_withReturns plain within)).Pairs
    (readTokens source) (readTokens (textWithReturns source)) := by
  have same := readTokens_withReturns plain within
  change List.map (recast .bare) _ = List.map (recast .bare) (List.map _ _) at same
  rw [← List.forall₂_eq_eq_eq, List.forall₂_map_left_iff, List.forall₂_map_right_iff,
    List.forall₂_map_right_iff] at same
  obtain ⟨length, said⟩ := List.forall₂_iff_zip.1 same.flip
  refine List.forall₂_iff_zip.2 ⟨length, fun {t t'} mem ↦ ?_⟩
  obtain ⟨ht, ht'⟩ := List.of_mem_zip mem
  have kinds : recast .bare t'.kind = recast .bare (t.withReturn _).kind :=
    congrArg Token.kind (said mem)
  have comment (text : String) (hk : t.kind = .comment text) :
      t'.kind = .comment (Comment.withReturn (Position.start.after source.toList)
        ⟨text, t.span⟩).text := by
    rw [← bare_eq_iff (by simp), kinds, Token.withReturn, hk]
    rfl
  refine pairs_ofSources ht ht' ?_ fun text text' hk hk' ↦ ?_
  · cases hk : t.kind.isComment with
    | false =>
      rw [Token.withReturn_of_isComment _ hk] at kinds
      exact like_of_bare kinds.symm
    | true =>
      obtain ⟨text, hk⟩ : ∃ text, t.kind = .comment text := by
        generalize t.kind = kind at hk
        cases kind <;> first | exact ⟨_, rfl⟩ | cases hk
      rw [hk, comment text hk]
      rfl
  · rw [comment text hk] at hk'
    cases hk'
    simp only [Comment.withReturn]
    split <;> rfl

private theorem abreast_withReturns : Abreast
    (.ofSources source (textWithReturns source)
      (fun c ↦ some (c.withReturn (Position.start.after source.toList))) false
      (fun _ ↦ iff_of_false nofun nofun) (rejectedSpans_withReturns plain within)) (.loose false)
    (startOf source) (startOf (textWithReturns source)) := by
  rw [startOf_eq, startOf_eq]
  exact {
    rest := by
      rw [Likeness.kept_of_not_drops rfl]
      exact pairs_withReturns plain within
    final := pairs_endOfFile _ _
    final_kind := rfl
    errors := rfl
    rejected := rfl
    rejected' := rfl
    tidy := ⟨none, false, Likeness.tidy_of_not_drops rfl _ _ _, id⟩
    ready := nofun
    even := nofun
    begun := nofun
    ahead := List.nil_prefix }

private theorem tokens_withReturns :
    recast .bare (tokenize (textWithReturns source)).tokens
      = recast .bare ((tokenize source).tokens.map
        (Token.withReturn (Position.start.after source.toList))) := by
  have tokens := (tokensOf_withReturns plain (single_of_tokens within)).1
  rw [tokenize, tokenize, tokens_tokenizeChars, tokens_tokenizeChars, textWithReturns,
    String.toList_ofList, recast_append, tokens, List.map_append, recast_append]
  rfl

/-- The comments are the same, but for their ends. -/
theorem commentsOf_withReturns :
    recast .bare (commentsOf (tokenize (textWithReturns source)).tokens)
      = recast .bare ((commentsOf (tokenize source).tokens).map
        (Comment.withReturn (Position.start.after source.toList))) := by
  have read (ts : List Token) :
      recast .bare (ts.filterMap Token.comment?) = (recast .bare ts).filterMap Token.comment? := by
    change List.filterMap _ _ = List.filterMap _ (List.map _ _)
    simp only [List.filterMap_filterMap, List.filterMap_map, Function.comp_def, comment?_bare]
  rw [commentsOf_of_inOrder (inOrder_tokenize _), commentsOf_of_inOrder (inOrder_tokenize _), read,
    tokens_withReturns plain within, ← read, List.filterMap_map, List.map_filterMap]
  congr 2
  exact funext fun t ↦ comment?_withReturn _ t

/-- The tokens say the same exactly if no comment ends with a line feed. -/
theorem tokens_withReturns_iff :
    recast .bare (tokenize (textWithReturns source)).tokens = recast .bare (tokenize source).tokens
      ↔ ∀ t ∈ (tokenize source).tokens, t.kind.isComment = true →
        t.span.stop = Position.start.after source.toList := by
  rw [tokens_withReturns plain within]
  change List.map (recast .bare) (List.map _ _) = List.map (recast .bare) _ ↔ _
  rw [List.map_map, List.map_inj_left]
  refine forall₂_congr fun t _ ↦ ?_
  obtain ⟨kind, span⟩ := t
  cases kind with
  | comment text =>
    have longer : text ++ "\r" ≠ text := fun same ↦ by
      simpa using congrArg String.length same
    by_cases ends : span.stop = Position.start.after source.toList <;>
      simp [Token.withReturn, Comment.withReturn, recast, TokenKind.isComment, ends, longer]
  | _ => exact iff_of_true rfl (by simp [TokenKind.isComment])

/-- A text whose literals keep to a line is read as the same program with returns, with the same
errors, but every comment that a line feed ends has a return at its end. -/
theorem parse_textWithReturns :
    (unplaced (tokenize (textWithReturns source)).tokens = unplaced (tokenize source).tokens
        ↔ ∀ t ∈ (tokenize source).tokens, t.kind.isComment = true →
          t.span.stop = Position.start.after source.toList)
      ∧ unplaced (tokenize (textWithReturns source)).tokens
        = unplaced ((tokenize source).tokens.map
          (Token.withReturn (Position.start.after source.toList)))
      ∧ (tokenize (textWithReturns source)).errors.map LexError.fault
        = (tokenize source).errors.map LexError.fault
      ∧ (parse (textWithReturns source)).errors.map ParseError.fault
        = (parse source).errors.map ParseError.fault
      ∧ unplaced (parse (textWithReturns source)).program
        = unplaced (recast (.editing fun c ↦
          some (c.withReturn (Position.start.after source.toList))) (parse source).program) := by
  have faults := (tokensOf_withReturns plain (single_of_tokens within)).2
  refine ⟨tokens_withReturns_iff plain within, tokens_withReturns plain within, ?_, ?_⟩
  · rwa [tokenize, tokenize, textWithReturns, String.toList_ofList]
  rcases parseTokens_ofSources (abreast_withReturns plain within) with ⟨-, -, drops, -⟩
    | ⟨errors, statements⟩
  · cases drops
  refine ⟨errors, ?_⟩
  have comments := commentsOf_withReturns plain within
  change Program.mk (recast .bare _) (recast .bare (commentsOf _)) .nowhere
    = ⟨recast .bare _, recast .bare (List.filterMap (some ∘ _) (commentsOf _)), .nowhere⟩
  rw [comments, List.filterMap_eq_map]
  exact congrArg (Program.mk · _ .nowhere) statements

end Sources

/-- A comment before a line feed, one at the end of the text, and an error at an invalid token. -/
theorem parse_textWithReturns_comments :
    let source := "# a\nsession \"x {y}\":\n  model: ?\nlet z = **w** # b"
    (parse source).lexErrors.length = 1 ∧ (tokenize source).tokens.length = 18
      ∧ unplaced (parse (textWithReturns source)).program
        = unplaced (recast (.editing fun c ↦
          some (c.withReturn (Position.start.after source.toList))) (parse source).program) :=
  ⟨by decide +kernel, by decide +kernel,
    (parse_textWithReturns (by decide +kernel) (by decide +kernel)).2.2.2.2⟩

/-- The return before the line feed that ends a comment is part of the comment. -/
theorem tokenize_return_of_comment :
    (tokenize (textWithReturns "# a\n")).tokens.map Token.kind = [.comment "# a\r", .endOfFile]
      ∧ (tokenize "# a\n").tokens.map Token.kind = [.comment "# a", .endOfFile] := by
  decide +kernel

end ProseLang
