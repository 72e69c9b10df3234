import ProseLang.Proofs.Grammar.Statement
import ProseLang.Proofs.Grammar.Totality

/-!
# Depth of blocks

Tokens are balanced if they close what they open and nothing else (`Balanced`). A parser keeps the
depth of blocks if what it takes is balanced (`KeepsDepth`, for parsers that may fail `Level`). It
is enough that what is ahead of it opens no block for good (`Cursor.Closes`), which is the case at
every place of a balanced stream, whatever its lines look like.

This module has the judgement, the parsers of single tokens, the loops and what stands between an
indent and its dedent: since every round takes a token, a loop within a block ends where the block
does (`rounds_readsBlock`).
-/

namespace ProseLang

/-- How much deeper a token leads. -/
def TokenKind.depth : TokenKind → Int
  | indent => 1
  | dedent => -1
  | _ => 0

/-- How much deeper tokens lead: the blocks that they open less the blocks that they close. -/
def nesting : List Token → Int
  | [] => 0
  | t :: ts => t.kind.depth + nesting ts

/-- Whether tokens close the blocks that they open, each after it was opened. -/
structure Balanced (ts : List Token) : Prop where
  nesting_eq : nesting ts = 0
  nonneg : ∀ k, 0 ≤ nesting (ts.take k)

section

variable {ts us : List Token} {t u : Token}

/-- No tokens lead nowhere. -/
@[simp] theorem nesting_nil : nesting [] = 0 := rfl

/-- A token leads as deep as it does by itself and from there. -/
@[simp] theorem nesting_cons (t : Token) (ts : List Token) :
    nesting (t :: ts) = t.kind.depth + nesting ts := rfl

/-- Tokens one after the other add up. -/
@[simp] theorem nesting_append (ts us : List Token) :
    nesting (ts ++ us) = nesting ts + nesting us := by
  induction ts with
  | nil => exact (Int.zero_add _).symm
  | cons t ts ih => rw [List.cons_append, nesting_cons, nesting_cons, ih, Int.add_assoc]

/-- Only the start and the end of a block lead deeper or back. -/
theorem TokenKind.depth_eq_zero {k : TokenKind} (hi : k ≠ .indent) (hd : k ≠ .dedent) :
    k.depth = 0 := by
  unfold depth
  split <;> trivial

/-- Comments lead no deeper. -/
theorem TokenKind.depth_eq_zero_of_isComment {k : TokenKind} (h : k.isComment = true) :
    k.depth = 0 := by
  cases k <;> first | rfl | cases h

namespace Balanced

/-- No tokens are balanced. -/
theorem nil : Balanced [] := ⟨rfl, fun k ↦ by simp⟩

/-- Balanced tokens one after the other are balanced. -/
theorem append (h : Balanced ts) (h' : Balanced us) : Balanced (ts ++ us) where
  nesting_eq := by rw [nesting_append, h.nesting_eq, h'.nesting_eq, Int.add_zero]
  nonneg k := by
    rw [List.take_append, nesting_append]
    exact Int.add_nonneg (h.nonneg k) (h'.nonneg _)

/-- Tokens none of which starts or ends a block are balanced. -/
theorem of_flat (h : ∀ t ∈ ts, t.kind.depth = 0) : Balanced ts := by
  have flat {us : List Token} (hus : ∀ t ∈ us, t.kind.depth = 0) : nesting us = 0 := by
    induction us with
    | nil => rfl
    | cons t us ih =>
      obtain ⟨ht, hus⟩ := List.forall_mem_cons.1 hus
      rw [nesting_cons, ht, ih hus, Int.add_zero]
  exact ⟨flat h, fun k ↦ Int.le_of_eq (flat fun t ht ↦ h t (List.mem_of_mem_take ht)).symm⟩

/-- A block around tokens. -/
theorem block (h : Balanced ts) (hi : t.kind = .indent) (hd : u.kind = .dedent) :
    Balanced (t :: (ts ++ [u])) where
  nesting_eq := by simp [h.nesting_eq, hi, hd, TokenKind.depth]
  nonneg k := by
    cases k with
    | zero => simp
    | succ k =>
      have inner := h.nonneg k
      have last : -1 ≤ nesting ([u].take (k - ts.length)) := by
        cases k - ts.length <;> simp [hd, TokenKind.depth]
      rw [List.take_succ_cons, List.take_append, nesting_cons, nesting_append, hi]
      change 0 ≤ 1 + _
      omega

private theorem iff_of_lt_length :
    Balanced ts ↔ nesting ts = 0 ∧ ∀ k < ts.length, 0 ≤ nesting (ts.take k) := by
  refine ⟨fun h ↦ ⟨h.nesting_eq, fun k _ ↦ h.nonneg k⟩, fun ⟨even, within⟩ ↦ ⟨even, fun k ↦ ?_⟩⟩
  rcases Nat.lt_or_ge k ts.length with inside | past
  · exact within k inside
  · rw [List.take_of_length_le past]
    exact Int.le_of_eq even.symm

instance (ts : List Token) : Decidable (Balanced ts) := decidable_of_iff' _ iff_of_lt_length

/-- What is left of balanced tokens closes the blocks that are open. -/
theorem nesting_drop_le (h : Balanced ts) (k : Nat) : nesting (ts.drop k) ≤ 0 := by
  have total := h.nesting_eq
  have before := h.nonneg k
  rw [← List.take_append_drop k ts, nesting_append] at total
  omega

end Balanced

/-- Whether tokens close `n` blocks that they do not open, and no other one. -/
structure Climbs (n : Nat) (ts : List Token) : Prop where
  nesting_eq : nesting ts = -n
  within : ∀ k, -n ≤ nesting (ts.take k)

/-- Tokens that close no other blocks than their own are balanced. -/
theorem Climbs.balanced (h : Climbs 0 ts) : Balanced ts := ⟨h.nesting_eq, h.within⟩

/-- No tokens close no block. -/
theorem Climbs.nil : Climbs 0 [] := ⟨rfl, fun k ↦ by simp⟩

/-- One token more, from which on `m` blocks are left to close. -/
theorem Climbs.cons {n m : Nat} (h : Climbs m ts) (ht : t.kind.depth = m - n) :
    Climbs n (t :: ts) where
  nesting_eq := by
    rw [nesting_cons, ht, h.nesting_eq]
    omega
  within k := by
    cases k with
    | zero => simp
    | succ k =>
      have := h.within k
      rw [List.take_succ_cons, nesting_cons]
      omega

open Cursor (failedLength)

/-- Going on after a statement that failed, `depth` blocks below its own, leaves these blocks and no
other one. -/
theorem climbs_take_failedLength {depth : Nat} (h : nesting ts ≤ -depth) :
    Climbs depth (ts.take (failedLength depth ts)) := by
  fun_induction failedLength depth ts with
  | case1 depth =>
    obtain rfl : depth = 0 := by
      rw [nesting_nil] at h
      omega
    exact .nil
  | case2 depth t rest hk ends =>
    obtain rfl : depth = 0 := of_decide_eq_true (Bool.and_eq_true_iff.1 ends).1
    exact .cons (m := 0) .nil (by rw [hk]; rfl)
  | case3 depth t rest hk ends ih =>
    rw [nesting_cons, hk] at h
    exact (ih (by simpa [TokenKind.depth] using h)).cons (by simp [hk, TokenKind.depth])
  | case4 depth t rest hk ih =>
    rw [nesting_cons, hk, TokenKind.depth] at h
    exact (ih (by omega)).cons (by rw [hk, TokenKind.depth]; omega)
  | case5 t rest hk => exact .nil
  | case6 t rest hk => exact .cons (m := 0) .nil (by rw [hk]; rfl)
  | case7 t rest hk depth ih =>
    rw [nesting_cons, hk, TokenKind.depth] at h
    exact (ih (by omega)).cons (by rw [hk, TokenKind.depth]; omega)
  | case8 depth t rest hnewline hindent hdedent ih =>
    have flat := TokenKind.depth_eq_zero hindent hdedent
    rw [nesting_cons, flat] at h
    exact (ih (by omega)).cons (by rw [flat]; omega)

end

namespace Cursor

variable {a c d : Cursor}

/-- Whether the tokens ahead of a cursor close every block that they open, and the file ends behind
them. -/
structure Closes (c : Cursor) : Prop where
  final : c.final.kind = .endOfFile
  inside : ∀ t ∈ c.rest, t.kind ≠ .endOfFile
  closed : ∀ k, nesting (c.rest.drop k) ≤ 0

/-- Whether the tokens between a cursor and one further on are balanced. -/
structure OnLevel (c d : Cursor) : Prop where
  taken : ∃ taken, c.rest = taken ++ d.rest ∧ Balanced taken
  final : d.final = c.final

namespace Closes

private theorem suffix (h : c.Closes) (hs : d.rest <:+ c.rest) (hf : d.final = c.final) :
    d.Closes where
  final := hf ▸ h.final
  inside t ht := h.inside t (hs.subset ht)
  closed k := by
    obtain ⟨taken, split⟩ := hs
    have := h.closed (taken.length + k)
    rwa [← split, ← List.drop_drop, List.drop_left] at this

/-- Wherever a parser moves to, the blocks ahead close. -/
theorem passes (h : c.Closes) (p : c.Passes d) : d.Closes := h.suffix p.suffix p.final

/-- Within a block there is a token ahead. -/
theorem kind_ne_endOfFile (h : c.Closes) (within : nesting c.rest < 0) :
    c.current.kind ≠ .endOfFile := by
  cases hc : c.rest with
  | nil => simp [hc] at within
  | cons t rest =>
    rw [current_of_cons hc]
    exact h.inside t (by simp [hc])

/-- Outside of blocks no block ends. -/
theorem kind_ne_dedent (h : c.Closes) (outside : nesting c.rest = 0) :
    c.current.kind ≠ .dedent := by
  intro hk
  cases hc : c.rest with
  | nil =>
    rw [current, hc] at hk
    cases hk.symm.trans h.final
  | cons t rest =>
    have later := h.closed 1
    rw [current_of_cons hc] at hk
    rw [hc, nesting_cons, hk, TokenKind.depth] at outside
    rw [hc, List.drop_succ_cons, List.drop_zero] at later
    omega

/-- After an indent the cursor is within a block. -/
theorem nesting_advance (h : c.Closes) (hk : c.current.kind = .indent) :
    nesting c.advance.rest < 0 := by
  cases hc : c.rest with
  | nil =>
    rw [current, hc] at hk
    cases hk.symm.trans h.final
  | cons t rest =>
    have whole := h.closed 0
    rw [current_of_cons hc] at hk
    rw [List.drop_zero, hc, nesting_cons, hk, TokenKind.depth] at whole
    rw [rest_advance hc]
    omega

end Closes

namespace OnLevel

/-- Between a cursor and itself nothing opens or closes. -/
theorem refl (c : Cursor) : c.OnLevel c := ⟨⟨[], rfl, .nil⟩, rfl⟩

/-- Balanced tokens come after balanced tokens. -/
theorem trans (h : c.OnLevel d) (h' : d.OnLevel a) : c.OnLevel a := by
  obtain ⟨⟨taken, rest, balanced⟩, final⟩ := h
  obtain ⟨⟨taken', rest', balanced'⟩, final'⟩ := h'
  refine ⟨⟨taken ++ taken', ?_, balanced.append balanced'⟩, final'.trans final⟩
  rw [rest, rest', List.append_assoc]

/-- Behind balanced tokens the blocks ahead close. -/
theorem closes (h : c.OnLevel d) (hc : c.Closes) : d.Closes := by
  obtain ⟨⟨taken, rest, -⟩, final⟩ := h
  exact hc.suffix ⟨taken, rest.symm⟩ final

/-- Balanced tokens leave what is ahead as deep as it was. -/
theorem nesting_rest (h : c.OnLevel d) : nesting d.rest = nesting c.rest := by
  obtain ⟨⟨taken, rest, balanced⟩, -⟩ := h
  rw [rest, nesting_append, balanced.nesting_eq, Int.zero_add]

private theorem skip {k : Nat} (h : Balanced (c.rest.take k)) : c.OnLevel (c.skip k) :=
  ⟨⟨_, by rw [rest_skip, List.take_append_drop], h⟩, final_skip c k⟩

private theorem skip_takeWhile {p : Token → Bool} (hp : ∀ t, p t = true → t.kind.depth = 0) :
    c.OnLevel (c.skip (c.rest.takeWhile p).length) := by
  refine skip (.of_flat fun t ht ↦ hp t ?_)
  rw [← List.prefix_iff_eq_take.1 (List.takeWhile_prefix p)] at ht
  exact List.all_eq_true.1 List.all_takeWhile t ht

/-- Ends of lines lead no deeper. -/
theorem skipNewlines (c : Cursor) : c.OnLevel c.skipNewlines :=
  skip_takeWhile fun t ht ↦ by rw [of_decide_eq_true ht]; rfl

/-- Comments lead no deeper. -/
theorem skipComments (c : Cursor) : c.OnLevel c.skipComments :=
  skip_takeWhile fun _ ht ↦ TokenKind.depth_eq_zero_of_isComment ht

/-- Ends of lines and comments lead no deeper. -/
theorem skipBlanks (c : Cursor) : c.OnLevel c.skipNewlines.skipComments :=
  (skipNewlines c).trans (skipComments _)

/-- A token that neither starts nor ends a block. -/
theorem advance (h : c.current.kind.depth = 0) : c.OnLevel c.advance := by
  cases hc : c.rest with
  | nil =>
    rw [Cursor.advance, hc]
    exact refl c
  | cons t rest =>
    rw [current_of_cons hc] at h
    refine ⟨⟨[t], by rw [hc, rest_advance hc]; rfl, .of_flat (by simpa using h)⟩, ?_⟩
    exact (Passes.advance c).final

/-- An error on record moves no cursor. -/
theorem report (c : Cursor) (e : ParseError) : c.OnLevel (c.report e) :=
  ⟨⟨[], by rw [rest_report]; rfl, .nil⟩, (Passes.report c e).final⟩

/-- Up to where parsing resumes, each block that opens closes. -/
theorem synchronize (h : c.Closes) : c.OnLevel c.synchronize :=
  have climbs : Climbs 0 (c.rest.take (failedLength 0 c.rest)) :=
    climbs_take_failedLength (by simpa using h.closed 0)
  skip climbs.balanced

/-- An error is recovered from on the level of where it was found. -/
theorem recover (h : c.Closes) (e : ParseError) : c.OnLevel (c.recover e) :=
  (report c e).trans (synchronize ((report c e).closes h))

/-- A block, from its indent to its dedent. -/
theorem block (hi : c.current.kind = .indent) (hc : c.Closes) (h : c.advance.OnLevel d)
    (hd : d.current.kind = .dedent) : c.OnLevel d.advance := by
  obtain ⟨⟨taken, rest, balanced⟩, final⟩ := h
  have closes : d.Closes := OnLevel.closes ⟨⟨taken, rest, balanced⟩, final⟩ (hc.passes (.advance c))
  have nonempty {e : Cursor} (he : e.Closes) (hk : e.current.kind ≠ .endOfFile) : e.rest ≠ [] :=
    Ahead.ne_nil ⟨he.final, Nat.lt_succ_self _⟩ hk
  obtain ⟨t, ts, ht⟩ := List.exists_cons_of_ne_nil (nonempty hc (by rw [hi]; nofun))
  obtain ⟨u, us, hu⟩ := List.exists_cons_of_ne_nil (nonempty closes (by rw [hd]; nofun))
  rw [current_of_cons ht] at hi
  rw [current_of_cons hu] at hd
  refine ⟨⟨t :: (taken ++ [u]), ?_, balanced.block hi hd⟩, ?_⟩
  · rw [rest_advance ht, hu] at rest
    rw [ht, rest_advance hu, rest]
    simp
  · exact ((Passes.advance d).final.trans final).trans (Passes.advance c).final

end OnLevel

end Cursor

section

variable {α β : Type} {c : Cursor}

/-- Whether a step takes balanced tokens at a cursor. -/
abbrev KeepsDepthAt (c : Cursor) (m : StateM Cursor α) : Prop := c.OnLevel (m c).2

/-- Whether a step takes balanced tokens wherever every block that opens closes. -/
def KeepsDepth (m : StateM Cursor α) : Prop := ∀ c, c.Closes → KeepsDepthAt c m

/-- Whether a parser takes balanced tokens at a cursor, whether it gives something or fails. -/
abbrev LevelAt (c : Cursor) (p : Parser α) : Prop := KeepsDepthAt c p.run

/-- Whether a parser takes balanced tokens wherever every block that opens closes. -/
abbrev Level (p : Parser α) : Prop := KeepsDepth p.run

/-! ## Composition -/

/-- Steps one after the other take balanced tokens from a cursor on. -/
theorem KeepsDepthAt.bind {m : StateM Cursor α} {k : α → StateM Cursor β} (hc : c.Closes)
    (h : KeepsDepthAt c m) (hk : ∀ x, KeepsDepth (k x)) : KeepsDepthAt c (m >>= k) :=
  h.trans (hk _ _ (h.closes hc))

namespace KeepsDepth

/-- A step that does nothing takes no tokens. -/
theorem pure (x : α) : KeepsDepth (pure x) := fun c _ ↦ .refl c

/-- Steps one after the other take balanced tokens. -/
theorem bind {m : StateM Cursor α} {k : α → StateM Cursor β} (h : KeepsDepth m)
    (hk : ∀ x, KeepsDepth (k x)) : KeepsDepth (m >>= k) := fun c hc ↦ .bind hc (h c hc) hk

/-- A step that moves the cursor over balanced tokens. -/
theorem modify {f : Cursor → Cursor} (hf : ∀ c : Cursor, c.Closes → c.OnLevel (f c)) :
    KeepsDepth (modify f) := hf

/-- A step may depend on where it starts. -/
theorem cursor {k : Cursor → StateM Cursor β} (h : ∀ c, c.Closes → KeepsDepthAt c (k c)) :
    KeepsDepth (get >>= k) := h

end KeepsDepth

/-- Parsers one after the other take balanced tokens from a cursor on. -/
theorem LevelAt.bind {p : Parser α} {k : α → Parser β} (hc : c.Closes) (h : LevelAt c p)
    (hk : ∀ x, Level (k x)) : LevelAt c (p >>= k) := by
  change KeepsDepthAt c (p.run >>= ExceptT.bindCont k)
  refine KeepsDepthAt.bind hc h fun r ↦ ?_
  cases r with
  | ok x => exact hk x
  | error e => exact fun d _ ↦ .refl d

/-- Going on after a first part whose end is known. -/
theorem LevelAt.bind_of_run {p : Parser α} {k : α → Parser β} {x : α} {d : Cursor}
    (run : p c = (.ok x, d)) (level : c.OnLevel d) (h : LevelAt d (k x)) : LevelAt c (p >>= k) := by
  have same : (p >>= k) c = k x d := Parser.bind_apply run
  exact Eq.mpr (congrArg (c.OnLevel ·.2) same) (level.trans h)

/-- What comes after a parser that fails takes nothing. -/
theorem LevelAt.bind_of_error {p : Parser α} {k : α → Parser β} {e : ParseError} {d : Cursor}
    (run : p c = (.error e, d)) (level : c.OnLevel d) : LevelAt c (p >>= k) := by
  have same : (p >>= k) c = (.error e, d) := Parser.bind_apply run
  exact Eq.mpr (congrArg (c.OnLevel ·.2) same) level

namespace Level

/-- A value that is there already takes no tokens. -/
theorem pure (x : α) : Level (pure x) := fun c _ ↦ .refl c

/-- An error takes no tokens. -/
theorem throw (e : ParseError) : Level (throw e : Parser α) := fun c _ ↦ .refl c

/-- An error about the token ahead takes no tokens. -/
theorem unexpected (expected : String) : Level (Parser.unexpected expected : Parser α) :=
  fun c _ ↦ .refl c

/-- An error about a missing block takes no tokens. -/
theorem missingBlock (construct : Construct) : Level (Parser.missingBlock construct : Parser α) :=
  fun c _ ↦ .refl c

/-- A value computed from what was read takes no tokens. -/
theorem lift (r : Except ParseError α) : Level (liftM r : Parser α) :=
  fun c _ ↦ by cases r <;> exact .refl c

/-- Parsers one after the other take balanced tokens. -/
theorem bind {p : Parser α} {k : α → Parser β} (h : Level p) (hk : ∀ x, Level (k x)) :
    Level (p >>= k) := fun c hc ↦ LevelAt.bind hc (h c hc) hk

/-- A parser whose value is changed takes the same tokens. -/
theorem map {p : Parser α} {f : α → β} (h : Level p) : Level (f <$> p) := by
  rw [map_eq_pure_bind]
  exact h.bind fun x ↦ .pure _

/-- Looking at the token at the cursor takes none. -/
theorem peek {k : TokenKind → Parser β} (h : ∀ c, c.Closes → LevelAt c (k c.current.kind)) :
    Level (Parser.peek >>= k) := h

/-- A parser may depend on the kind of the next token. -/
theorem peekNext {k : TokenKind → Parser β} (h : ∀ kind, Level (k kind)) :
    Level (Parser.peekNext >>= k) := fun c hc ↦ h _ c hc

/-- A parser may depend on where it starts. -/
theorem cursor {k : Cursor → Parser β} (h : ∀ c, c.Closes → LevelAt c (k c)) :
    Level (Parser.cursor >>= k) := h

private theorem spanFrom {first : Span} {k : Span → Parser β} (h : ∀ span, Level (k span)) :
    Level (Parser.spanFrom first >>= k) := fun c hc ↦ h _ c hc

/-- The span of what is read closes it. -/
theorem close {first : Span} {f : Span → α} : Level (do return f (← Parser.spanFrom first)) :=
  .spanFrom fun _ ↦ .pure _

/-- A look at the token ahead takes no tokens. -/
theorem at? {kind : TokenKind} {k : Bool → Parser β} (h : ∀ b, Level (k b)) :
    Level (Parser.at? kind >>= k) := fun c hc ↦ h _ c hc

/-- A parser that moves the cursor over balanced tokens. -/
theorem move {f : Cursor → Cursor} (hf : ∀ c : Cursor, c.OnLevel (f c)) : Level (Parser.move f) :=
  fun c _ ↦ hf c

/-- A step as a parser. -/
theorem of_step {m : StateM Cursor α} (h : KeepsDepth m) : Level (liftM m : Parser α) := h

end Level

/-! ## Tokens -/

private theorem LevelAt.take (h : c.current.kind.depth = 0) : LevelAt c Parser.take := .advance h

/-- Taking the token at the cursor, which is known to be neither an indent nor a dedent. -/
theorem LevelAt.take_bind {k : Token → Parser β} (hc : c.Closes) (h : c.current.kind.depth = 0)
    (hk : ∀ t, Level (k t)) : LevelAt c (Parser.take >>= k) := .bind hc (.take h) hk

/-- A token that may be there and neither starts nor ends a block. -/
theorem take?_level {kind : TokenKind} (hkind : kind.depth = 0) : Level (Parser.take? kind) := by
  intro c _
  have run : (Parser.take? kind).run c = _ := Parser.take?_apply kind c
  change c.OnLevel ((Parser.take? kind).run c).2
  rw [run]
  split
  · next hk => exact .advance (hk ▸ hkind)
  · exact .refl c

/-- A token that has to be there and neither starts nor ends a block. -/
theorem expect_level {kind : TokenKind} (hkind : kind.depth = 0) : Level (Parser.expect kind) :=
  (take?_level hkind).bind fun r ↦ by
    cases r with
    | none => exact .unexpected _
    | some t => exact .pure t

/-- No reserved word starts or ends a block. -/
theorem keyword_level (word : Keyword) : Level (Parser.keyword word) :=
  (expect_level rfl).bind fun _ ↦ .pure _

/-- No symbol starts or ends a block. -/
theorem symbol_level (mark : Punctuation) : Level (Parser.symbol mark) :=
  (expect_level rfl).bind fun _ ↦ .pure _

/-- No symbol that may be there starts or ends a block. -/
theorem symbol?_level (mark : Punctuation) : Level (Parser.symbol? mark) :=
  (take?_level rfl).bind fun _ ↦ .pure _

/-- A look for a symbol takes no tokens. -/
theorem atSymbol_level (mark : Punctuation) : Level (Parser.atSymbol mark) := fun c _ ↦ .refl c

/-- No name starts or ends a block. -/
theorem name_level (role : String) : Level (Parser.name role) := by
  refine .peek fun c hc ↦ ?_
  split
  · next hk => exact .take_bind hc (by rw [hk]; rfl) fun _ ↦ .pure _
  · exact Level.unexpected _ c hc

/-- No string starts or ends a block. -/
theorem string_level (role : String) : Level (Parser.string role) := by
  refine .peek fun c hc ↦ ?_
  split
  · next hk => exact .take_bind hc (by rw [hk]; rfl) fun _ ↦ .pure _
  · exact Level.unexpected _ c hc

/-- No condition in stars starts or ends a block. -/
theorem discretion_level (role : String) : Level (Parser.discretion role) := by
  refine .peek fun c hc ↦ ?_
  split
  · next hk => exact .take_bind hc (by rw [hk]; rfl) fun _ ↦ .pure _
  · exact Level.unexpected _ c hc

/-- No number starts or ends a block. -/
theorem count_level (role : String) : Level (Parser.count role) := by
  refine .peek fun c hc ↦ ?_
  split
  · next hk => exact .take_bind hc (by rw [hk]; rfl) fun _ ↦ .lift _
  · exact Level.unexpected _ c hc

/-- The end of a statement is on its level. -/
theorem endStatement_level : Level Parser.endStatement := by
  refine .cursor fun c hc ↦ ?_
  split
  · exact .refl c
  · exact .refl c
  · refine Level.peek (fun c hc ↦ ?_) c hc
    split
    · next hk => exact .take_bind hc (by rw [hk]; rfl) fun _ ↦ .pure _
    · exact .refl c
    · exact .refl c
    · exact .refl c

/-- A parser that fails is recovered from on its own level. -/
theorem recovering_keepsDepth {p : Parser α} (h : Level p) : KeepsDepth (Parser.recovering p) := by
  refine KeepsDepth.bind h fun r ↦ ?_
  cases r with
  | ok x => exact .pure _
  | error e => exact (KeepsDepth.modify fun c hc ↦ .recover hc e).bind fun _ ↦ .pure _

/-! ## Loops -/

/-- A loop takes balanced tokens when each round does. -/
theorem rounds_keepsDepth {round : StateM Cursor (List α × RoundEnd)} (h : KeepsDepth round) :
    KeepsDepth (rounds round) := by
  intro c hc
  change c.OnLevel (rounds round c).2
  fun_induction rounds round c with
  | case1 c xs c' run | case2 c xs e c' run | case4 c xs c' run stuck =>
    have level := h c hc
    rwa [KeepsDepthAt, run] at level
  | case3 c xs c' run shorter ys e c'' rest ih =>
    have level := h c hc
    rw [KeepsDepthAt, run] at level
    have after := ih (level.closes hc)
    rw [rest] at after
    exact level.trans after

private theorem many_level {round : Parser (Option α × Bool)} (h : Level round) :
    Level (Parser.many round) := by
  intro c hc
  have gathered : KeepsDepth (Parser.manyRound round) := KeepsDepth.bind h fun r ↦ by
    rcases r with e | ⟨x, b⟩ <;> exact .pure _
  have keeps : ∀ r, (Parser.manyResult (α := α) r).2 = r.2 := by
    rintro ⟨⟨xs, e | e⟩, d⟩ <;> rfl
  have run : (Parser.many round).run c = Parser.manyResult (rounds (Parser.manyRound round) c) :=
    Parser.many_apply round c
  change c.OnLevel ((Parser.many round).run c).2
  rw [run, keeps]
  exact rounds_keepsDepth gathered c hc

/-- Items take balanced tokens when each of them does. -/
theorem manyWhile_level {continues : Parser Bool} {item : Parser α} (hcontinues : Level continues)
    (hitem : Level item) : Level (Parser.manyWhile continues item) := by
  refine many_level (hcontinues.bind fun b ↦ ?_)
  cases b with
  | true => exact hitem.bind fun x ↦ .pure _
  | false => exact .pure _

/-- Items between commas take balanced tokens when each of them does. -/
theorem commaList_level (close : Punctuation) {item : Parser α} (hitem : Level item) :
    Level (Parser.commaList close item) := by
  refine (many_level ((atSymbol_level close).bind fun b ↦ ?_)).bind fun _ ↦
    (symbol_level close).bind fun _ ↦ .pure _
  cases b with
  | true => exact .pure _
  | false => exact hitem.bind fun x ↦ (symbol?_level .comma).bind fun _ ↦ .pure _

/-- Items in parentheses take balanced tokens when each of them does. -/
theorem parenthesized?_level {item : Parser α} (hitem : Level item) :
    Level (Parser.parenthesized? item) := by
  refine (symbol?_level _).bind fun b ↦ ?_
  split
  · exact commaList_level _ hitem
  · exact .pure _

/-! ## Within a block -/

/-- Whether a loop goes on until a block or the file ends. -/
def EndsWithBlock (round : StateM Cursor (List α × RoundEnd)) : Prop :=
  ∀ c xs e d, round c = ((xs, e), d) →
    e = .again ∨ e = .stop ∧ (d.current.kind = .dedent ∨ d.current.kind = .endOfFile)

private theorem rounds_endsWithBlock {round : StateM Cursor (List α × RoundEnd)}
    (ends : EndsWithBlock round)
    (moves : ∀ n, Moves n (fun r ↦ r.2.takes 0) round round) (hc : c.final.kind = .endOfFile) :
    (rounds round c).2.current.kind = .dedent ∨ (rounds round c).2.current.kind = .endOfFile := by
  fun_induction rounds round c with
  | case1 c xs d run =>
    rcases ends c xs _ d run with impossible | ⟨-, kind⟩
    · cases impossible
    · exact kind
  | case2 c xs e d run =>
    rcases ends c xs _ d run with impossible | ⟨impossible, -⟩ <;> cases impossible
  | case3 c xs d run shorter ys e a rest ih =>
    have passes := (moves (c.rest.length + 1) c ⟨hc, Nat.lt_succ_self _⟩).passes
    rw [run] at passes
    rw [rest] at ih
    exact ih (passes.final ▸ hc)
  | case4 c xs d run stuck =>
    have takes := (moves (c.rest.length + 1) c ⟨hc, Nat.lt_succ_self _⟩).takes
    rw [run] at takes
    exact absurd (Nat.lt_of_succ_le takes) stuck

/-- Whether a parser that starts within a block goes on to the end of the block, without failing. -/
def ReadsBlock (p : Parser α) : Prop :=
  ∀ c : Cursor, c.Closes → nesting c.rest < 0 →
    ∃ x d, p c = (.ok x, d) ∧ c.OnLevel d ∧ d.current.kind = .dedent

/-- A loop that goes on until the block ends comes to the end of the block. -/
theorem rounds_current {round : StateM Cursor (List α × RoundEnd)} (level : KeepsDepth round)
    (ends : EndsWithBlock round) (moves : ∀ n, Moves n (fun r ↦ r.2.takes 0) round round)
    (hc : c.Closes) (within : nesting c.rest < 0) : (rounds round c).2.current.kind = .dedent := by
  have after := rounds_keepsDepth level c hc
  refine (rounds_endsWithBlock ends moves hc.final).resolve_right ?_
  exact (after.closes hc).kind_ne_endOfFile (after.nesting_rest ▸ within)

/-- A loop whose rounds go on to the end of a block reads all of it. -/
theorem rounds_readsBlock {round : StateM Cursor (List α × RoundEnd)} (level : KeepsDepth round)
    (ends : EndsWithBlock round) (moves : ∀ n, Moves n (fun r ↦ r.2.takes 0) round round) :
    ReadsBlock (fun c ↦ let ((read, _), d) := rounds round c; (.ok read, d) : Parser (List α)) :=
  fun c hc within ↦
    ⟨_, _, rfl, rounds_keepsDepth level c hc, rounds_current level ends moves hc within⟩

/-- What opens a block and reads to its end finds the dedent there. -/
theorem LevelAt.block {first : Parser Token} {p : Parser α} {k : α → Parser β} {t : Token}
    (run : first c = (.ok t, c.advance)) (hp : ReadsBlock p) (hk : ∀ x, Level (k x)) (hc : c.Closes)
    (hi : c.current.kind = .indent) :
    LevelAt c (do
      let _ ← first
      let x ← p
      let _ ← Parser.expect .dedent
      k x) := by
  obtain ⟨x, d, run', level, hd⟩ := hp c.advance (hc.passes (.advance c)) (hc.nesting_advance hi)
  have whole := Cursor.OnLevel.block hi hc level hd
  have same : (first >>= fun _ ↦ p >>= fun x ↦ Parser.expect .dedent >>= fun _ ↦ k x) c
      = k x d.advance :=
    (Parser.bind_apply run).trans ((Parser.bind_apply run').trans
      (Parser.bind_apply (Parser.expect_apply hd)))
  exact Eq.mpr (congrArg (c.OnLevel ·.2) same) (whole.trans (hk x _ (whole.closes hc)))

/-- A line that ends where a block opens, and the block. -/
theorem LevelAt.atBlock {p : Parser α} {k : α → Parser β} (hp : ReadsBlock p)
    (hk : ∀ x, Level (k x)) (hc : c.Closes) (h : c.atBlock = true) :
    LevelAt c (do
      let _ ← Parser.take
      let _ ← Parser.take
      let x ← p
      let _ ← Parser.expect .dedent
      k x) := by
  obtain ⟨line, opens⟩ := Bool.and_eq_true_iff.1 h
  have flat : c.current.kind.depth = 0 := by rw [of_decide_eq_true line]; rfl
  have hne : c.rest ≠ [] :=
    Cursor.Ahead.ne_nil ⟨hc.final, Nat.lt_succ_self _⟩ (by rw [of_decide_eq_true line]; nofun)
  have first : Parser.take c = (.ok c.current, c.advance) := rfl
  have hi : c.advance.current.kind = .indent := by
    rw [Cursor.current_advance hne]
    exact of_decide_eq_true opens
  exact .bind_of_run first (.advance flat) (.block rfl hp hk (hc.passes (.advance c)) hi)

/-- A block that may be missing where it is expected. -/
theorem Level.block {p : Parser α} {k : α → Parser β} (hp : ReadsBlock p) (hk : ∀ x, Level (k x)) :
    Level (do
      let _ ← Parser.expect .indent
      let x ← p
      let _ ← Parser.expect .dedent
      k x) := by
  intro c hc
  by_cases hi : c.current.kind = .indent
  · exact LevelAt.block (Parser.expect_apply hi) hp hk hc hi
  · have none : Parser.take? .indent c = (.ok none, c) := by rw [Parser.take?_apply, if_neg hi]
    exact LevelAt.bind_of_error ((Parser.bind_apply none).trans rfl) (.refl c)

end

end ProseLang
