import ProseLang.Proofs.Grammar.Spans
import ProseLang.Proofs.Grammar.Surroundings

/-!
# Parsers move forward

`Forward n j p p'` says of two parsers that they do the same at every cursor with less than `n`
tokens ahead, that they leave it further on in the same stream, with the errors recorded before, and
that they take at least `j` tokens where they give something. The tokens may be any and stand in any
order. The two parsers are one that is written over different parsers of what is nested in it: as
long as a construct takes a token before it comes to what is nested, it can tell them apart only
where one token more is ahead.

This module has the judgement, the parsers of single tokens and the loops. That every round of a
loop takes a token is part of it (`rounds_moves`).
-/

namespace ProseLang

namespace Cursor

/-- What holds of a cursor and one that a parser has moved it to. -/
structure Passes (c d : Cursor) : Prop extends c.Follows d where
  final : d.final = c.final
  rejected : d.rejected = c.rejected

/-- A cursor with less than `n` tokens ahead, in a stream that has an end. -/
structure Ahead (n : Nat) (c : Cursor) : Prop where
  final : c.final.kind = .endOfFile
  length_lt : c.rest.length < n

variable {a c d : Cursor} {n : Nat}

namespace Passes

/-- A cursor is where it is. -/
theorem refl (c : Cursor) : c.Passes c := ⟨.refl c, rfl, rfl⟩

/-- A cursor that is moved on twice is moved on. -/
theorem trans (h : c.Passes d) (h' : d.Passes a) : c.Passes a :=
  ⟨h.toFollows.trans h'.toFollows, h'.final.trans h.final, h'.rejected.trans h.rejected⟩

/-- A cursor is moved on over a token. -/
theorem advance (c : Cursor) : c.Passes c.advance := by
  refine ⟨.advance c, ?_, ?_⟩ <;> unfold Cursor.advance <;> split <;> rfl

/-- A cursor is moved on over some tokens. -/
theorem skip (c : Cursor) (k : Nat) : c.Passes (c.skip k) := by
  induction k generalizing c with
  | zero => exact .refl c
  | succ k ih => exact (advance c).trans (ih c.advance)

/-- An error on record moves no cursor. -/
theorem report (c : Cursor) (e : ParseError) : c.Passes (c.report e) := by
  refine ⟨.report c e, ?_, ?_⟩ <;> unfold Cursor.report <;> split <;> rfl

/-- A cursor is moved on to where parsing resumes. -/
theorem recover (c : Cursor) (e : ParseError) : c.Passes (c.recover e) :=
  (report c e).trans (skip _ _)

/-- A cursor is moved on over ends of lines and comments. -/
theorem skipBlanks (c : Cursor) : c.Passes c.skipNewlines.skipComments :=
  (skip c _).trans (skip _ _)

end Passes

/-- After some tokens fewer are ahead. -/
theorem Ahead.passes (h : c.Ahead n) (p : c.Passes d) {j : Nat}
    (takes : d.rest.length + j ≤ c.rest.length) : d.Ahead (n - j) :=
  ⟨by rw [p.final, h.final], by have := h.length_lt; omega⟩

/-- Before the end of the file a token is ahead. -/
theorem Ahead.ne_nil (h : c.Ahead n) (hk : c.current.kind ≠ .endOfFile) : c.rest ≠ [] := by
  intro hnil
  rw [current, hnil] at hk
  exact hk h.final

/-- The current token is the first one ahead. -/
theorem current_of_cons {t : Token} {rest : List Token} (h : c.rest = t :: rest) :
    c.current = t := by
  rw [Cursor.current, h]
  rfl

/-- Behind the first token ahead are the others. -/
theorem rest_advance {t : Token} {rest : List Token} (h : c.rest = t :: rest) :
    c.advance.rest = rest := by
  rw [Cursor.advance, h]

/-- Taking a token leaves one less. -/
theorem length_advance (hne : c.rest ≠ []) : c.advance.rest.length + 1 = c.rest.length := by
  obtain ⟨t, rest, h⟩ := List.exists_cons_of_ne_nil hne
  rw [rest_advance h, h, List.length_cons]

/-- Recovery takes a token, unless a block or the file ends there. -/
theorem length_recover (hne : c.rest ≠ []) (hk : c.current.kind ≠ .dedent) (e : ParseError) :
    (c.recover e).rest.length + 1 ≤ c.rest.length := by
  obtain ⟨t, rest, h⟩ := List.exists_cons_of_ne_nil hne
  have some := failedLength_pos rest (current_of_cons h ▸ hk)
  rw [recover, synchronize, rest_skip, List.length_drop, rest_report, h]
  simp only [List.length_cons]
  omega

/-- What fails and recovers takes a token, unless a block or the file ends where it starts. -/
theorem Passes.takes_recover (h : c.Passes d) (hne : c.rest ≠ []) (hk : c.current.kind ≠ .dedent)
    (e : ParseError) : (d.recover e).rest.length + 1 ≤ c.rest.length := by
  rcases Nat.eq_or_lt_of_le h.length_le with same | less
  · have rest : d.rest = c.rest := h.suffix.eq_of_length same
    have current : d.current = c.current := by
      obtain ⟨t, ts, ht⟩ := List.exists_cons_of_ne_nil hne
      rw [current_of_cons ht, current_of_cons (rest.trans ht)]
    rw [← rest]
    exact length_recover (rest ▸ hne) (current ▸ hk) e
  · have := (recover d e).length_le
    omega

end Cursor

section

variable {α β : Type} {c : Cursor} {m n i j : Nat} {least : α → Nat} {least' : β → Nat}

/-- Whether what two steps come to from a cursor is the same and further on, where what they give
tells the least number of tokens that they take. -/
structure Moved (c : Cursor) (least : α → Nat) (r r' : α × Cursor) : Prop where
  same : r = r'
  passes : c.Passes r.2
  takes : r.2.rest.length + least r.1 ≤ c.rest.length

/-- Whether two steps do the same at a cursor and move it forward. -/
abbrev MovesAt (c : Cursor) (least : α → Nat) (m m' : StateM Cursor α) : Prop :=
  Moved c least (m c) (m' c)

/-- Whether two steps do the same and move forward wherever less than `n` tokens are ahead. -/
def Moves (n : Nat) (least : α → Nat) (m m' : StateM Cursor α) : Prop :=
  ∀ c, c.Ahead n → MovesAt c least m m'

/-- The least number of tokens of a parser that takes `j` of them when it gives something. -/
def ifOk (j : Nat) : Except ParseError α → Nat
  | .ok _ => j
  | .error _ => 0

/-- Whether two parsers do the same at a cursor and move it forward, and take at least `j` tokens
when they give something. -/
abbrev ForwardAt (c : Cursor) (j : Nat) (p p' : Parser α) : Prop := MovesAt c (ifOk j) p.run p'.run

/-- Whether two parsers do the same and move forward wherever less than `n` tokens are ahead, and
take at least `j` tokens when they give something. -/
abbrev Forward (n j : Nat) (p p' : Parser α) : Prop := Moves n (ifOk j) p.run p'.run

/-! ## Composition -/

/-- Steps that take more take at least fewer. -/
theorem MovesAt.imp {m m' : StateM Cursor α} {less : α → Nat} (h : MovesAt c least m m')
    (hless : ∀ x, less x ≤ least x) : MovesAt c less m m' :=
  ⟨h.same, h.passes, by have := h.takes; have := hless (m c).1; omega⟩

/-- Steps whose first part is known. -/
theorem MovesAt.bind_of_run {m m' : StateM Cursor α} {k k' : α → StateM Cursor β} {x : α}
    {d : Cursor} (run : m c = (x, d)) (run' : m' c = (x, d)) (h : Moved c least' (k x d) (k' x d)) :
    MovesAt c least' (m >>= k) (m' >>= k') := by
  rwa [MovesAt, state_bind run, state_bind run']

/-- Two pairs of steps one after the other, from a cursor on. -/
theorem MovesAt.bind {m m' : StateM Cursor α} {k k' : α → StateM Cursor β} (hc : c.Ahead n)
    (h : MovesAt c least m m')
    (hk : ∀ x, Moves (n - least x) (fun y ↦ least' y - least x) (k x) (k' x)) :
    MovesAt c least' (m >>= k) (m' >>= k') := by
  obtain ⟨same, passes, takes⟩ := h
  obtain ⟨same', passes', takes'⟩ := hk (m c).1 (m c).2 (hc.passes passes takes)
  refine ⟨?_, passes.trans passes', ?_⟩
  · change k (m c).1 (m c).2 = k' (m' c).1 (m' c).2
    rw [← same, same']
  · change (k (m c).1 (m c).2).2.rest.length + least' (k (m c).1 (m c).2).1 ≤ _
    omega

namespace Moves

/-- A step that does nothing takes nothing. -/
theorem pure {x : α} (h : least x = 0) : Moves n least (pure x) (pure x) :=
  fun c _ ↦ ⟨rfl, .refl c, Nat.le_of_eq (congrArg (c.rest.length + ·) h)⟩

/-- Steps that take more take at least fewer. -/
theorem imp {m m' : StateM Cursor α} {less : α → Nat} (h : Moves n least m m')
    (hless : ∀ x, less x ≤ least x) : Moves n less m m' := fun c hc ↦ (h c hc).imp hless

/-- Going on from a cursor further on. -/
theorem skip {f : Cursor → Cursor} {k k' : Unit → StateM Cursor β}
    (hf : ∀ c : Cursor, c.Passes (f c))
    (h : Moves n least' (k ()) (k' ())) : Moves n least' (modify f >>= k) (modify f >>= k') := by
  intro c hc
  obtain ⟨same, passes, takes⟩ := h (f c) (hc.passes (j := 0) (hf c) (hf c).length_le)
  exact ⟨same, (hf c).trans passes, Nat.le_trans takes (hf c).length_le⟩

/-- Steps may depend on where they start. -/
theorem cursor {k k' : Cursor → StateM Cursor β}
    (h : ∀ c, c.Ahead n → MovesAt c least' (k c) (k' c)) :
    Moves n least' (get >>= k) (get >>= k') := h

/-- Steps that do the same before many tokens do so before fewer. -/
theorem mono {m m' : StateM Cursor α} (h : Moves n least m m') (hi : i ≤ n) :
    Moves i least m m' :=
  fun c hc ↦ h c ⟨hc.final, Nat.lt_of_lt_of_le hc.length_lt hi⟩

/-- Two pairs of steps one after the other: the second has to do the same before fewer tokens. -/
theorem bind {m m' : StateM Cursor α} {k k' : α → StateM Cursor β} (h : Moves n least m m')
    (hk : ∀ x, Moves (n - least x) (fun y ↦ least' y - least x) (k x) (k' x)) :
    Moves n least' (m >>= k) (m' >>= k') := fun c hc ↦ (h c hc).bind hc hk

end Moves

/-- Two pairs of parsers one after the other, from a cursor on. -/
theorem ForwardAt.bind {p p' : Parser α} {k k' : α → Parser β} (hc : c.Ahead n)
    (h : ForwardAt c j p p') (hk : ∀ x, Forward (n - j) (i - j) (k x) (k' x)) :
    ForwardAt c i (p >>= k) (p' >>= k') := by
  change MovesAt c (ifOk i) (p.run >>= ExceptT.bindCont k) (p'.run >>= ExceptT.bindCont k')
  refine MovesAt.bind hc h fun r ↦ ?_
  cases r with
  | ok x =>
    refine (hk x).imp fun y ↦ ?_
    cases y <;> simp [ifOk]
  | error e => exact fun d _ ↦ ⟨rfl, .refl d, Nat.le_refl _⟩

namespace Forward

/-- A value that is there already takes nothing. -/
theorem pure (x : α) : Forward n 0 (pure x) (pure x) := fun c _ ↦ ⟨rfl, .refl c, Nat.le_refl _⟩

/-- An error gives nothing, so any number of tokens may be asked of it. -/
theorem throw (e : ParseError) : Forward n j (throw e : Parser α) (throw e) :=
  fun c _ ↦ ⟨rfl, .refl c, Nat.le_refl _⟩

/-- An error about the token ahead gives nothing. -/
theorem unexpected (expected : String) :
    Forward n j (Parser.unexpected expected : Parser α) (Parser.unexpected expected) :=
  fun c _ ↦ ⟨rfl, .refl c, Nat.le_refl _⟩

/-- An error about a missing block gives nothing. -/
theorem missingBlock (construct : Construct) :
    Forward n j (Parser.missingBlock construct : Parser α) (Parser.missingBlock construct) :=
  fun c _ ↦ ⟨rfl, .refl c, Nat.le_refl _⟩

/-- A value computed from what was read takes nothing. -/
theorem lift (r : Except ParseError α) : Forward n 0 (liftM r : Parser α) (liftM r) :=
  fun c _ ↦ ⟨rfl, .refl c, by cases r <;> exact Nat.le_refl _⟩

/-- Parsers that take more take at least fewer. -/
theorem less {p p' : Parser α} (h : Forward n j p p') (hi : i ≤ j) : Forward n i p p' :=
  h.imp fun x ↦ by cases x <;> simp [ifOk, hi]

/-- Two pairs of parsers one after the other: the second has to do the same before fewer tokens. -/
theorem bind {p p' : Parser α} {k k' : α → Parser β} (h : Forward n j p p')
    (hk : ∀ x, Forward (n - j) (i - j) (k x) (k' x)) : Forward n i (p >>= k) (p' >>= k') :=
  fun c hc ↦ ForwardAt.bind hc (h c hc) hk

/-- Parsers that do the same before many tokens do so before fewer. -/
theorem mono {p p' : Parser α} (h : Forward n j p p') (hm : m ≤ n) : Forward m j p p' :=
  Moves.mono h hm

/-- A parser with fewer tokens ahead. -/
theorem fewer {p p' : Parser α} (h : Forward (n + 1) j p p') : Forward n j p p' :=
  h.mono (Nat.le_succ n)

/-- A first part whose tokens do not matter. -/
theorem seq {p p' : Parser α} {k k' : α → Parser β} (h : Forward n j p p')
    (hk : ∀ x, Forward n i (k x) (k' x)) : Forward n i (p >>= k) (p' >>= k') :=
  (h.less (Nat.zero_le j)).bind hk

/-- Parsers whose value is changed take the same. -/
theorem map {p p' : Parser α} {f : α → β} (h : Forward n j p p') :
    Forward n j (f <$> p) (f <$> p') := by
  rw [map_eq_pure_bind, map_eq_pure_bind]
  refine h.bind fun x ↦ ?_
  rw [Nat.sub_self]
  exact .pure _

/-- Looking at the token at the cursor takes none. -/
theorem peek {k k' : TokenKind → Parser β}
    (h : ∀ c, c.Ahead n → ForwardAt c i (k c.current.kind) (k' c.current.kind)) :
    Forward n i (Parser.peek >>= k) (Parser.peek >>= k') := h

/-- Parsers may depend on the kind of the next token. -/
theorem peekNext {k k' : TokenKind → Parser β} (h : ∀ kind, Forward n i (k kind) (k' kind)) :
    Forward n i (Parser.peekNext >>= k) (Parser.peekNext >>= k') := fun c hc ↦ h _ c hc

/-- Parsers may depend on where they start. -/
theorem cursor {k k' : Cursor → Parser β} (h : ∀ c, c.Ahead n → ForwardAt c i (k c) (k' c)) :
    Forward n i (Parser.cursor >>= k) (Parser.cursor >>= k') := h

private theorem spanFrom {first : Span} {k k' : Span → Parser β}
    (h : ∀ span, Forward n i (k span) (k' span)) :
    Forward n i (Parser.spanFrom first >>= k) (Parser.spanFrom first >>= k') := fun c hc ↦ h _ c hc

/-- The span of what is read closes it. -/
theorem close {first : Span} {f : Span → α} :
    Forward n 0 (do return f (← Parser.spanFrom first)) (do return f (← Parser.spanFrom first)) :=
  .spanFrom fun _ ↦ .pure _

/-- A look at the token ahead takes nothing. -/
theorem at? {kind : TokenKind} {k k' : Bool → Parser β} (h : ∀ b, Forward n i (k b) (k' b)) :
    Forward n i (Parser.at? kind >>= k) (Parser.at? kind >>= k') := fun c hc ↦ h _ c hc

/-- A parser that moves the cursor on. -/
theorem move {f : Cursor → Cursor} (hf : ∀ c : Cursor, c.Passes (f c)) :
    Forward n 0 (Parser.move f) (Parser.move f) :=
  fun c _ ↦ ⟨rfl, hf c, (hf c).length_le⟩

/-- Steps as parsers. -/
theorem of_moves {m m' : StateM Cursor α} (h : Moves n least m m') :
    Forward n 0 (liftM m : Parser α) (liftM m') := fun c hc ↦ by
  obtain ⟨same, passes, -⟩ := h c hc
  refine ⟨?_, passes, passes.length_le⟩
  change (Except.ok (m c).1, (m c).2) = (Except.ok (m' c).1, (m' c).2)
  rw [same]

/-- A step within a parser. -/
theorem bind_of_moves {m m' : StateM Cursor α} {k k' : α → Parser β} (h : Moves n least m m')
    (hk : ∀ x, Forward (n - least x) (i - least x) (k x) (k' x)) :
    Forward n i (liftM m >>= k) (liftM m' >>= k') := by
  change Moves n (ifOk i) (m >>= fun x ↦ (k x).run) (m' >>= fun x ↦ (k' x).run)
  refine Moves.bind h fun x ↦ (hk x).imp fun y ↦ ?_
  cases y <;> simp [ifOk]

end Forward

/-! ## Tokens -/

/-- The current token is taken, unless the file ends. -/
theorem take_forward : Forward n 0 Parser.take Parser.take :=
  fun c _ ↦ ⟨rfl, .advance c, (Cursor.Passes.advance c).length_le⟩

private theorem ForwardAt.take (hne : c.rest ≠ []) : ForwardAt c 1 Parser.take Parser.take :=
  ⟨rfl, .advance c, Nat.le_of_eq (Cursor.length_advance hne)⟩

private theorem take?_moves (kind : TokenKind) (hkind : kind ≠ .endOfFile) :
    Moves n (fun | .ok (some _) => 1 | _ => 0) (Parser.take? kind).run (Parser.take? kind).run := by
  intro c hc
  have run : (Parser.take? kind).run c = _ := Parser.take?_apply kind c
  refine ⟨rfl, ?_, ?_⟩ <;> rw [run] <;> split
  · exact .advance c
  · exact .refl c
  · next hk => exact Nat.le_of_eq (Cursor.length_advance (hc.ne_nil (hk ▸ hkind)))
  · exact Nat.le_refl _

/-- A token that may be there moves the cursor on if it is. -/
theorem take?_forward (kind : TokenKind) : Forward n 0 (Parser.take? kind) (Parser.take? kind) := by
  intro c hc
  have run : (Parser.take? kind).run c = _ := Parser.take?_apply kind c
  have passes : c.Passes ((Parser.take? kind).run c).2 := by
    rw [run]
    split
    · exact .advance c
    · exact .refl c
  refine ⟨rfl, passes, ?_⟩
  cases ((Parser.take? kind).run c).1 <;> exact passes.length_le

/-- A token that has to be there is taken, unless it is the end of the file. -/
theorem expect_forward (kind : TokenKind) (hkind : kind ≠ .endOfFile) :
    Forward n 1 (Parser.expect kind) (Parser.expect kind) := by
  change Moves n (ifOk 1) ((Parser.take? kind).run >>= ExceptT.bindCont _)
    ((Parser.take? kind).run >>= ExceptT.bindCont _)
  refine Moves.bind (take?_moves kind hkind) fun r ↦ ?_
  rcases r with e | _ | t
  · exact fun d _ ↦ ⟨rfl, .refl d, Nat.le_refl _⟩
  · exact Forward.unexpected _
  · refine (Forward.pure t).imp fun y ↦ ?_
    cases y <;> simp [ifOk]

/-- A reserved word is a token. -/
theorem keyword_forward (word : Keyword) :
    Forward n 1 (Parser.keyword word) (Parser.keyword word) :=
  (expect_forward (.keyword word) nofun).bind fun _ ↦ .pure _

/-- A symbol is a token. -/
theorem symbol_forward (mark : Punctuation) :
    Forward n 1 (Parser.symbol mark) (Parser.symbol mark) :=
  (expect_forward (.symbol mark) nofun).bind fun _ ↦ .pure _

/-- A symbol that may be there moves the cursor on if it is. -/
theorem symbol?_forward (mark : Punctuation) :
    Forward n 0 (Parser.symbol? mark) (Parser.symbol? mark) :=
  (take?_forward _).bind fun _ ↦ .pure _

/-- A look for a symbol takes nothing. -/
theorem atSymbol_forward (mark : Punctuation) :
    Forward n 0 (Parser.atSymbol mark) (Parser.atSymbol mark) :=
  fun c _ ↦ ⟨rfl, .refl c, Nat.le_refl _⟩

/-- Taking the token at the cursor, which is known not to be the end of the file. -/
theorem ForwardAt.take_bind {k k' : Token → Parser β} (hc : c.Ahead n)
    (hk : c.current.kind ≠ .endOfFile) (h : ∀ t, Forward (n - 1) (i - 1) (k t) (k' t)) :
    ForwardAt c i (Parser.take >>= k) (Parser.take >>= k') :=
  ForwardAt.bind hc (.take (hc.ne_nil hk)) h

/-- A name is a token. -/
theorem name_forward (role : String) : Forward n 1 (Parser.name role) (Parser.name role) := by
  refine .peek fun c hc ↦ ?_
  split
  · next hk => exact .take_bind hc (by rw [hk]; nofun) fun _ ↦ .pure _
  · exact Forward.unexpected _ c hc

/-- A string is a token. -/
theorem string_forward (role : String) : Forward n 1 (Parser.string role) (Parser.string role) := by
  refine .peek fun c hc ↦ ?_
  split
  · next hk => exact .take_bind hc (by rw [hk]; nofun) fun _ ↦ .pure _
  · exact Forward.unexpected _ c hc

/-- A condition in stars is a token. -/
theorem discretion_forward (role : String) :
    Forward n 1 (Parser.discretion role) (Parser.discretion role) := by
  refine .peek fun c hc ↦ ?_
  split
  · next hk => exact .take_bind hc (by rw [hk]; nofun) fun _ ↦ .pure _
  · exact Forward.unexpected _ c hc

/-- A number is a token. -/
theorem count_forward (role : String) : Forward n 1 (Parser.count role) (Parser.count role) := by
  refine .peek fun c hc ↦ ?_
  split
  · next hk => exact .take_bind hc (by rw [hk]; nofun) fun _ ↦ .lift _
  · exact Forward.unexpected _ c hc

/-! ## Loops -/

/-- The least number of tokens of a round: one if there is another round. -/
def RoundEnd.takes (atStop : Nat) : RoundEnd → Nat
  | again => 1
  | stop => atStop
  | fail _ => 0

/-- The least number of tokens of a loop. -/
def ifNone (j : Nat) (e : Option ParseError) : Nat := if e.isNone then j else 0

/-- A loop whose rounds take tokens takes them round by round, to a round that is not followed by
another. -/
theorem rounds_moves {round round' : StateM Cursor (List α × RoundEnd)} (hj : j ≤ 1)
    (h : Moves n (fun r ↦ r.2.takes j) round round') :
    Moves n (fun r ↦ ifNone j r.2) (rounds round) (rounds round') := by
  intro c hc
  fun_induction rounds round c with
  | case1 c xs c' run | case2 c xs e c' run =>
    obtain ⟨same, passes, takes⟩ := h c hc
    rw [run] at passes takes
    exact ⟨by rw [rounds, rounds, ← same, run], by rwa [rounds, run], by rwa [rounds, run]⟩
  | case3 c xs c' run shorter ys e c'' rest ih =>
    obtain ⟨same, passes, takes⟩ := h c hc
    rw [run] at same passes takes
    obtain ⟨same', passes', takes'⟩ := ih ⟨by rw [passes.final, hc.final], by
      have := hc.length_lt
      omega⟩
    have here := rounds_again run shorter
    have there := rounds_again same.symm shorter
    refine ⟨by rw [here, there, same'], by rw [here]; exact passes.trans passes', ?_⟩
    rw [here]
    have := passes'.length_le
    dsimp only [ifNone] at takes' ⊢
    split <;> omega
  | case4 c xs c' run stuck =>
    obtain ⟨-, -, takes⟩ := h c hc
    rw [run] at takes
    exact absurd (Nat.lt_of_succ_le takes) stuck

/-- A round of `many` takes a token if there is another one. -/
def MovesRound (n : Nat) (round round' : Parser (Option α × Bool)) : Prop :=
  Moves n (fun | .ok (_, true) => 1 | _ => 0) round.run round'.run

/-- A round of a parser as a round of a loop. -/
theorem manyRound_moves {round round' : Parser (Option α × Bool)} (h : MovesRound n round round') :
    Moves n (fun r ↦ r.2.takes 0) (Parser.manyRound round) (Parser.manyRound round') := by
  refine Moves.bind h fun r ↦ ?_
  rcases r with e | ⟨x, _ | _⟩ <;> exact fun d _ ↦ ⟨rfl, .refl d, Nat.le_refl _⟩

private theorem many_forward {round round' : Parser (Option α × Bool)}
    (h : MovesRound n round round') : Forward n 0 (Parser.many round) (Parser.many round') := by
  intro c hc
  obtain ⟨same, passes, -⟩ := rounds_moves (Nat.zero_le 1) (manyRound_moves h) c hc
  have keeps : ∀ r, (Parser.manyResult (α := α) r).2 = r.2 := by
    rintro ⟨⟨xs, e | e⟩, d⟩ <;> rfl
  have run : ∀ round : Parser (Option α × Bool), (Parser.many round).run c
      = Parser.manyResult (rounds (Parser.manyRound round) c) :=
        fun round ↦ Parser.many_apply round c
  have moved : c.Passes ((Parser.many round).run c).2 := by rwa [run, keeps]
  refine ⟨by rw [run, run, same], moved, ?_⟩
  cases ((Parser.many round).run c).1 <;> exact moved.length_le

/-- A round of reading items while a condition holds. -/
def Parser.whileRound (continues : Parser Bool) (item : Parser α) : Parser (Option α × Bool) := do
  if ← continues then return (some (← item), true) else return (none, false)

/-- A round of reading items separated by commas. -/
def Parser.commaRound (close : Punctuation) (item : Parser α) : Parser (Option α × Bool) := do
  if ← atSymbol close then return (none, false)
  let x ← item
  return (some x, ← symbol? .comma)

private theorem Forward.movesRound {round round' : Parser (Option α × Bool)}
    (h : Forward n 1 round round') : MovesRound n round round' := by
  refine h.imp fun r ↦ ?_
  rcases r with e | ⟨x, _ | _⟩ <;> simp [ifOk]

/-- A round that is the last one need not take a token. -/
theorem movesRound_pure (x : Option α) :
    MovesRound n (Pure.pure (x, false)) (Pure.pure (x, false)) :=
  fun c _ ↦ ⟨rfl, .refl c, Nat.le_refl _⟩

private theorem MovesRound.bind {p : Parser β}
    {k k' : β → Parser (Option α × Bool)} (h : Forward n 0 p p)
    (hk : ∀ x, MovesRound n (k x) (k' x)) : MovesRound n (p >>= k) (p >>= k') := by
  change Moves n _ (p.run >>= ExceptT.bindCont k) (p.run >>= ExceptT.bindCont k')
  refine Moves.bind h fun r ↦ ?_
  cases r with
  | ok x => exact hk x
  | error e => exact fun d _ ↦ ⟨rfl, .refl d, Nat.le_refl _⟩

/-- An item read while a condition holds takes a token, so there is progress. -/
theorem whileRound_moves {continues : Parser Bool} {item item' : Parser α}
    (hcontinues : Forward n 0 continues continues) (hitem : Forward n 1 item item') :
    MovesRound n (Parser.whileRound continues item) (Parser.whileRound continues item') := by
  refine .bind hcontinues fun b ↦ ?_
  cases b with
  | true => exact (hitem.bind fun x ↦ .pure _).movesRound
  | false => exact movesRound_pure none

/-- An item between commas takes a token, so there is progress. -/
theorem commaRound_moves (close : Punctuation) {item item' : Parser α}
    (hitem : Forward n 1 item item') :
    MovesRound n (Parser.commaRound close item) (Parser.commaRound close item') := by
  refine .bind (atSymbol_forward close) fun b ↦ ?_
  cases b with
  | true => exact movesRound_pure none
  | false =>
    exact (hitem.bind fun x ↦ (symbol?_forward .comma).bind fun _ ↦ .pure _).movesRound

/-- Items move forward when each of them takes a token. -/
theorem manyWhile_forward {continues : Parser Bool} {item item' : Parser α}
    (hcontinues : Forward n 0 continues continues) (hitem : Forward n 1 item item') :
    Forward n 0 (Parser.manyWhile continues item) (Parser.manyWhile continues item') :=
  many_forward (whileRound_moves hcontinues hitem)

/-- Items up to a closing delimiter take at least that. -/
theorem commaList_forward (close : Punctuation) {item item' : Parser α}
    (hitem : Forward n 1 item item') :
    Forward n 1 (Parser.commaList close item) (Parser.commaList close item') :=
  (many_forward (commaRound_moves close hitem)).bind fun _ ↦
    (symbol_forward close).bind fun _ ↦ .pure _

/-- Items in parentheses move forward, if there are parentheses. -/
theorem parenthesized?_forward {item item' : Parser α} (hitem : Forward n 1 item item') :
    Forward n 0 (Parser.parenthesized? item) (Parser.parenthesized? item') := by
  refine (symbol?_forward _).bind fun b ↦ ?_
  split
  · exact (commaList_forward _ hitem).less (Nat.zero_le 1)
  · exact .pure _

/-- What the rounds of a loop have read is kept when one fails. -/
theorem Forward.gather {m m' : StateM Cursor (List α × Option ParseError)}
    {least : List α × Option ParseError → Nat} (h : Moves n least m m') :
    Forward n 0 (fun c ↦ let ((read, _), c') := m c; (.ok read, c') : Parser (List α))
      (fun c ↦ let ((read, _), c') := m' c; (.ok read, c')) := fun c hc ↦ by
  obtain ⟨same, passes, -⟩ := h c hc
  refine ⟨?_, passes, passes.length_le⟩
  change (Except.ok (m c).1.1, (m c).2) = (Except.ok (m' c).1.1, (m' c).2)
  rw [same]

/-- A parser that recovers moves forward as the parser does. -/
theorem recovering_moves {p p' : Parser α} (h : Forward n j p p') :
    Moves n (fun _ ↦ 0) (Parser.recovering p) (Parser.recovering p') := by
  refine Moves.bind h fun r ↦ ?_
  cases r with
  | ok x => exact fun d _ ↦ ⟨rfl, .refl d, by rw [Nat.zero_sub]; exact Nat.le_refl _⟩
  | error e => exact fun d _ ↦ ⟨rfl, .recover d e, (Cursor.Passes.recover d e).length_le⟩

/-- A parser that takes a token when it gives something takes one in any case, since recovery does,
unless a block or the file ends where it starts. -/
theorem recovering_movesAt {p p' : Parser α} (hc : c.Ahead n) (h : Forward n 1 p p')
    (hend : c.current.kind ≠ .endOfFile) (hk : c.current.kind ≠ .dedent) :
    MovesAt c (fun _ ↦ 1) (Parser.recovering p) (Parser.recovering p') := by
  obtain ⟨same, passes, takes⟩ := h c hc
  have run : ∀ p : Parser α, Parser.recovering p c = match p.run c with
      | (.ok x, d) => (some x, d)
      | (.error e, d) => (none, d.recover e) := by
    intro p
    rcases hp : p.run c with ⟨e | x, d⟩ <;> exact (state_bind hp).trans rfl
  have both : Parser.recovering p c = Parser.recovering p' c := by rw [run, run, same]
  rcases hp : p.run c with ⟨e | x, d⟩ <;> rw [hp] at passes takes
  · have ends : Parser.recovering p c = (none, d.recover e) := by rw [run, hp]
    exact ⟨both, by rw [ends]; exact passes.trans (.recover d e),
      by rw [ends]; exact passes.takes_recover (hc.ne_nil hend) hk e⟩
  · have ends : Parser.recovering p c = (some x, d) := by rw [run, hp]
    exact ⟨both, by rw [ends]; exact passes, by rw [ends]; exact takes⟩

/-- The end of a statement moves forward. -/
theorem endStatement_forward : Forward n 0 Parser.endStatement Parser.endStatement := by
  refine .cursor fun c hc ↦ ?_
  split
  · exact Forward.pure _ c hc
  · exact Forward.pure _ c hc
  · refine Forward.peek (fun c hc ↦ ?_) c hc
    split
    · exact take_forward.bind (fun _ ↦ .pure _) c hc
    · exact Forward.pure _ c hc
    · exact Forward.pure _ c hc
    · exact Forward.unexpected _ c hc

end

end ProseLang
