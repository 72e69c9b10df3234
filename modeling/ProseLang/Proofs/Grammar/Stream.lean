import ProseLang.Grammar.Body

/-!
# Streams of tokens with layout

`openBlocks` counts the blocks that a stream closes without opening them: the ones that are open
where it starts. `Laid` says what the grammar relies on: a stream opens no block that it does not
close, and no line ends without a token for its end. Going on after a statement that failed leaves
the statement's own blocks and no other (`openBlocks_drop_failedLength`). It stops at a boundary
unless only comments are left (`failedLength_append`).
-/

namespace ProseLang

/-- The number of blocks that tokens close without opening them. -/
def openBlocks : List Token → Nat
  | [] => 0
  | t :: rest =>
    match t.kind with
    | .dedent => openBlocks rest + 1
    | .indent => openBlocks rest - 1
    | _ => openBlocks rest

/-- Whether a token is neither layout nor a comment. -/
def TokenKind.isPlain (k : TokenKind) : Bool := !k.isLayout && !k.isComment

/-- Whether tokens start with one that is no comment. -/
def startsPlainly : List Token → Bool
  | [] => false
  | t :: _ => !t.kind.isComment

/-- Whether tokens close every block that they open, and a line that has a token has an end. -/
def Laid : List Token → Prop
  | [] => True
  | t :: rest =>
    t.kind ≠ .endOfFile ∧ (t.kind = .indent → 0 < openBlocks rest)
      ∧ (t.kind.isPlain = true → startsPlainly rest = true) ∧ Laid rest

/-- Whether tokens are comments and nothing else. -/
def onlyComments (ts : List Token) : Bool := ts.all (·.kind.isComment)

/-- A token that neither starts nor ends a block leaves the blocks ahead open. -/
theorem openBlocks_cons_of_flat {t : Token} (rest : List Token) (hi : t.kind ≠ .indent)
    (hd : t.kind ≠ .dedent) : openBlocks (t :: rest) = openBlocks rest := by
  rw [openBlocks]
  split
  · contradiction
  · contradiction
  · rfl

/-- The end of a block leaves one block more open before it. -/
theorem openBlocks_cons_dedent {t : Token} (rest : List Token) (h : t.kind = .dedent) :
    openBlocks (t :: rest) = openBlocks rest + 1 := by
  rw [openBlocks, h]

/-- The start of a block leaves one block less open before it. -/
theorem openBlocks_cons_indent {t : Token} (rest : List Token) (h : t.kind = .indent) :
    openBlocks (t :: rest) = openBlocks rest - 1 := by
  rw [openBlocks, h]

/-- What follows some tokens of a stream is a stream. -/
theorem Laid.suffix {ts us : List Token} (h : Laid ts) (hs : us <:+ ts) : Laid us := by
  induction ts with
  | nil => exact List.suffix_nil.1 hs ▸ h
  | cons t ts ih =>
    rcases List.suffix_cons_iff.1 hs with rfl | hs
    · exact h
    · exact ih h.2.2.2 hs

/-- Leaving out tokens that open and close nothing leaves the open blocks. -/
theorem openBlocks_drop_takeWhile {p : Token → Bool} (ts : List Token)
    (hp : ∀ t, p t = true → t.kind ≠ .indent ∧ t.kind ≠ .dedent) :
    openBlocks (ts.drop (ts.takeWhile p).length) = openBlocks ts := by
  induction ts with
  | nil => rfl
  | cons t ts ih =>
    cases ht : p t with
    | false => simp [ht]
    | true =>
      rw [List.takeWhile_cons_of_pos ht, List.length_cons, List.drop_succ_cons, ih,
        openBlocks_cons_of_flat ts (hp t ht).1 (hp t ht).2]

/-- Comments leave no block open. -/
theorem openBlocks_of_onlyComments {ts : List Token} (h : onlyComments ts = true) :
    openBlocks ts = 0 := by
  induction ts with
  | nil => rfl
  | cons t ts ih =>
    obtain ⟨ht, hts⟩ : t.kind.isComment = true ∧ onlyComments ts = true := by
      simpa [onlyComments] using h
    rw [openBlocks_cons_of_flat, ih hts] <;> · intro hk; simp [hk, TokenKind.isComment] at ht

/-! ## After a statement that failed -/

open Cursor (failedLength)

/-- Recovery skips no more tokens than there are. -/
theorem failedLength_le (depth : Nat) (ts : List Token) : failedLength depth ts ≤ ts.length := by
  fun_induction failedLength depth ts <;> simp_all

/-- Going on after a statement that failed leaves the blocks within it. -/
theorem openBlocks_drop_failedLength {depth : Nat} {ts : List Token} (hl : Laid ts)
    (h : depth ≤ openBlocks ts) :
    openBlocks (ts.drop (failedLength depth ts)) + depth = openBlocks ts := by
  fun_induction failedLength depth ts with
  | case1 => exact Nat.add_eq_left.2 (Nat.le_zero.1 h)
  | case2 depth t rest hk ends =>
    obtain rfl : depth = 0 := of_decide_eq_true (Bool.and_eq_true_iff.1 ends).1
    exact (openBlocks_cons_of_flat rest (by simp [hk]) (by simp [hk])).symm
  | case3 depth t rest hk ends ih =>
    have flat := openBlocks_cons_of_flat rest (by simp [hk]) (by simp [hk] : t.kind ≠ .dedent)
    rw [flat] at h ⊢
    exact ih hl.2.2.2 h
  | case4 depth t rest hk ih =>
    have opens := hl.2.1 hk
    rw [openBlocks_cons_indent rest hk] at h ⊢
    have := ih hl.2.2.2 (by omega)
    rw [List.drop_succ_cons]
    omega
  | case5 t rest hk => rfl
  | case6 t rest hk => exact (openBlocks_cons_dedent rest hk).symm
  | case7 t rest hk depth ih =>
    rw [openBlocks_cons_dedent rest hk] at h ⊢
    have := ih hl.2.2.2 (by omega)
    rw [List.drop_succ_cons]
    omega
  | case8 depth t rest hnewline hindent hdedent ih =>
    rw [openBlocks_cons_of_flat rest hindent hdedent] at h ⊢
    exact ih hl.2.2.2 h

/-- At a place that is not the end of a block there is a token to leave out. -/
theorem failedLength_pos {t : Token} (rest : List Token) (h : t.kind ≠ .dedent) :
    0 < failedLength 0 (t :: rest) := by
  rw [failedLength]
  split <;> first | contradiction | (split <;> omega) | omega

/-- Comments have no place to go on among them. -/
theorem failedLength_append_of_onlyComments {ts : List Token} (us : List Token)
    (h : onlyComments ts = true) :
    failedLength 0 (ts ++ us) = ts.length + failedLength 0 us := by
  induction ts with
  | nil => simp
  | cons t ts ih =>
    obtain ⟨ht, hts⟩ : t.kind.isComment = true ∧ onlyComments ts = true := by
      simpa [onlyComments] using h
    have rest := ih hts
    cases hk : t.kind with
    | comment text =>
      simp only [List.cons_append, failedLength, hk, rest, List.length_cons]
      omega
    | _ => simp [hk, TokenKind.isComment] at ht

/-- Outside of comments, the place to go on does not depend on what follows the stream. -/
theorem failedLength_append {depth : Nat} {ts us : List Token} (hl : Laid ts)
    (hd : depth ≤ openBlocks ts) (hc : onlyComments ts = true → depth ≠ 0)
    (hu : us.head?.map Token.kind ≠ some .indent) :
    failedLength depth (ts ++ us) = failedLength depth ts := by
  induction ts generalizing depth with
  | nil => exact absurd (Nat.le_zero.1 hd) (hc rfl)
  | cons t ts ih =>
    obtain ⟨hend, hindent, hplain, hl⟩ := hl
    cases hk : t.kind with
    | newline =>
      rw [openBlocks_cons_of_flat _ (by simp [hk]) (by simp [hk])] at hd
      have head : (depth = 0 && !((ts ++ us).head?.map Token.kind == some .indent))
          = (depth = 0 && !(ts.head?.map Token.kind == some .indent)) := by
        cases ts <;> simp_all
      simp only [List.cons_append, failedLength, hk, head]
      split
      · rfl
      · next more =>
        rw [ih hl hd]
        rintro only rfl
        cases ts with
        | nil => simp at more
        | cons u ts =>
          have : u.kind = .indent := by simpa using more
          simp [onlyComments, this, TokenKind.isComment] at only
    | indent =>
      have opens := hindent hk
      rw [openBlocks_cons_indent _ hk] at hd
      simp only [List.cons_append, failedLength, hk]
      rw [ih hl (by omega) (by simp)]
    | dedent =>
      rw [openBlocks_cons_dedent _ hk] at hd
      match depth with
      | 0 | 1 => simp [failedLength, hk]
      | depth + 2 =>
        simp only [List.cons_append, failedLength, hk]
        rw [ih hl (by omega) (by simp)]
    | comment text =>
      rw [openBlocks_cons_of_flat _ (by simp [hk]) (by simp [hk])] at hd
      simp only [List.cons_append, failedLength, hk]
      rw [ih hl hd]
      intro only
      exact hc (by simpa [onlyComments, hk, TokenKind.isComment] using only)
    | endOfFile => exact absurd hk hend
    | _ =>
      rw [openBlocks_cons_of_flat _ (by simp [hk]) (by simp [hk])] at hd
      simp only [List.cons_append, failedLength, hk]
      rw [ih hl hd]
      intro only
      have starts := hplain <| by
        simp [hk, TokenKind.isPlain, TokenKind.isLayout, TokenKind.isComment]
      cases ts <;> simp_all [startsPlainly, onlyComments]

end ProseLang
