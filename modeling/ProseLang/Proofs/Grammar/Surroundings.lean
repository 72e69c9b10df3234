import ProseLang.Proofs.Grammar.Stream
import ProseLang.Proofs.Program.Recast

/-!
# Reading within surroundings

A stream of tokens may be part of a longer one. `Surroundings` are the errors recorded before it,
the token before it and the tokens after it; `Cursor.within` puts a cursor into them and forgets
its places. `Reads` says that a parser does within surroundings what it does on the stream alone:
it gives the same result up to places and stops at the same token.

This holds of every parser of the grammar because no construct looks for what a statement may
start with after a place where it may end. Only an error at the very end of the stream may name
another token there.
-/

namespace ProseLang

/-- Whether a statement may start with a token of this kind. -/
def TokenKind.startsStatement : TokenKind → Bool
  | keyword word =>
    word ∈ [.import_, .agent, .session, .block, .let_, .const, .do_, .parallel, .repeat_, .for_,
      .loop, .try_, .throw, .choice, .if_]
  | symbol mark => mark = .leftBracket || mark = .leftBrace
  | string _ | number _ | discretion _ | identifier _ => true
  | _ => false

/-- Whether a token of this kind only stands within a statement. -/
def TokenKind.continues (k : TokenKind) : Bool := k.isPlain && !k.startsStatement

/-- Whether a token of this kind may end a statement by itself. -/
def TokenKind.endsStatement : TokenKind → Bool
  | dedent | comment _ => true
  | _ => false

/-- What is around a stream of tokens. After it, the next statement starts. -/
structure Surroundings where
  errors : List ParseError
  previous : Option TokenKind
  after : List Token
  after_starts : ∀ t ∈ after.find? (!·.kind.isComment), t.kind.startsStatement = true

namespace Cursor

/-- The cursor within surroundings, without its places. -/
def within (c : Cursor) (e : Surroundings) : Cursor where
  rest := recast .bare (c.rest ++ e.after)
  final := ⟨.endOfFile, .nowhere⟩
  previous := (recast .bare c.previous).or e.previous
  errors := e.errors ++ recast .bare c.errors

/-- A cursor on a stream that closes `level` blocks. -/
structure Stands (level : Nat) (c : Cursor) : Prop where
  laid : Laid c.rest
  final : c.final.kind = .endOfFile
  rejected : c.rejected = []
  opens : openBlocks c.rest = level

/-- A cursor in or right after a statement, with at most `bound` tokens ahead. -/
structure At (level bound : Nat) (c : Cursor) : Prop extends c.Stands level where
  length_le : c.rest.length ≤ bound
  ended : onlyComments c.rest = true → c.previous.any TokenKind.endsStatement = true

/-- A cursor at a token that is no comment. -/
structure Live (level bound : Nat) (c : Cursor) : Prop extends c.Stands level where
  length_le : c.rest.length ≤ bound
  starts : startsPlainly c.rest = true

/-- Where the last token that is not layout ends, after one that ends at `p`. -/
def lastEndAfter (p : Position) (ts : List Token) : Position :=
  ts.foldl (fun p t ↦ if t.kind.isLayout then p else t.span.stop) p

/-- What holds of a cursor and one that it is moved to. -/
structure Follows (c d : Cursor) : Prop where
  passed : ∃ taken, c.rest = taken ++ d.rest ∧ d.lastEnd = lastEndAfter c.lastEnd taken
  errors : c.errors <+: d.errors
  previous : c.previous.isSome = true ∨ d.rest.length < c.rest.length → d.previous.isSome = true

variable {c d : Cursor} {L n m : Nat} {e : Surroundings}

/-- Within surroundings the stream goes on with what is after it. -/
@[simp] theorem rest_within : (c.within e).rest = recast .bare c.rest ++ recast .bare e.after :=
  recast_append _ _ _

/-- The bound on the tokens ahead may be larger. -/
theorem At.mono (h : c.At L n) (hn : n ≤ m) : c.At L m :=
  { h with length_le := Nat.le_trans h.length_le hn }

/-- The bound on the tokens ahead may be larger. -/
theorem Live.mono (h : c.Live L n) (hn : n ≤ m) : c.Live L m :=
  { h with length_le := Nat.le_trans h.length_le hn }

/-- There is a token ahead of a cursor in a statement. -/
theorem Live.ne_nil (h : c.Live L n) : c.rest ≠ [] := by
  have := h.starts
  intro hnil
  simp [hnil, startsPlainly] at this

private theorem not_onlyComments_of_starts {ts : List Token} (h : startsPlainly ts = true) :
    onlyComments ts = false := by
  cases ts <;> simp_all [startsPlainly, onlyComments]

/-- A cursor at a token is in or right after a statement. -/
theorem Live.at (h : c.Live L n) : c.At L n :=
  { h with
    ended := fun only ↦ by rw [not_onlyComments_of_starts h.starts] at only; contradiction }

/-- The tokens ahead of a cursor that is moved are the last ones. -/
theorem Follows.suffix (h : c.Follows d) : d.rest <:+ c.rest := by
  obtain ⟨taken, rest, -⟩ := h.passed
  exact ⟨taken, rest.symm⟩

/-- No cursor that is moved has more tokens ahead. -/
theorem Follows.length_le (h : c.Follows d) : d.rest.length ≤ c.rest.length :=
  h.suffix.length_le

/-- A cursor follows itself. -/
theorem Follows.refl (c : Cursor) : c.Follows c where
  passed := ⟨[], rfl, rfl⟩
  errors := List.prefix_refl _
  previous h := h.resolve_right (Nat.lt_irrefl _)

/-- A cursor that is moved twice follows where it was first. -/
theorem Follows.trans {a : Cursor} (h : c.Follows d) (h' : d.Follows a) : c.Follows a where
  passed := by
    obtain ⟨taken, rest, last⟩ := h.passed
    obtain ⟨taken', rest', last'⟩ := h'.passed
    refine ⟨taken ++ taken', ?_, ?_⟩
    · rw [rest, rest', List.append_assoc]
    · rw [last', last, lastEndAfter, lastEndAfter, lastEndAfter, List.foldl_append]
  errors := h.errors.trans h'.errors
  previous hp := by
    apply h'.previous
    rcases hp with hp | hp
    · exact .inl (h.previous (.inl hp))
    · by_cases hlt : a.rest.length < d.rest.length
      · exact .inr hlt
      · have := h'.length_le
        exact .inl (h.previous (.inr (by omega)))

/-- A cursor follows where it was a token before. -/
theorem Follows.advance (c : Cursor) : c.Follows c.advance := by
  unfold Cursor.advance
  split
  · exact .refl c
  · next t rest h => exact ⟨⟨[t], h, rfl⟩, List.prefix_refl _, fun _ ↦ rfl⟩

/-- A cursor follows where it was some tokens before. -/
theorem Follows.skip (c : Cursor) (k : Nat) : c.Follows (c.skip k) := by
  induction k generalizing c with
  | zero => exact .refl c
  | succ k ih => exact (Follows.advance c).trans (ih c.advance)

/-- An error on record moves no cursor. -/
theorem Follows.report (c : Cursor) (f : ParseError) : c.Follows (c.report f) := by
  unfold Cursor.report
  split
  · exact .refl c
  · exact ⟨⟨[], rfl, rfl⟩, List.prefix_append _ _, fun h ↦ h.resolve_right (Nat.lt_irrefl _)⟩

/-- Where parsing resumes follows where it failed. -/
theorem Follows.recover (c : Cursor) (f : ParseError) : c.Follows (c.recover f) :=
  (Follows.report c f).trans (Follows.skip _ _)

/-! ## Moving within surroundings -/

/-- The current token is the same within surroundings, but for its place. -/
theorem current_within (h : c.rest ≠ []) : (c.within e).current = recast .bare c.current := by
  obtain ⟨t, ts, ht⟩ := List.exists_cons_of_ne_nil h
  simp [current, ht]

private theorem next_within (h : c.rest.tail ≠ []) : (c.within e).next = recast .bare c.next := by
  obtain ⟨t, ts, ht⟩ := List.exists_cons_of_ne_nil h
  cases hc : c.rest with
  | nil => simp [hc] at h
  | cons u us =>
    obtain rfl : us = t :: ts := by simpa [hc] using ht
    simp [next, hc]

/-- After the current token the next one is current. -/
theorem current_advance (h : c.rest ≠ []) : c.advance.current = c.next := by
  obtain ⟨t, ts, ht⟩ := List.exists_cons_of_ne_nil h
  simp [advance, current, next, ht]

/-- A cursor moves on in the same way within surroundings. -/
theorem advance_within (h : c.rest ≠ []) : (c.within e).advance = c.advance.within e := by
  obtain ⟨t, ts, ht⟩ := List.exists_cons_of_ne_nil h
  have : (c.within e).rest = recast .bare t :: recast .bare (ts ++ e.after) := by simp [ht]
  simp only [advance, this, ht]
  simp [within, recast, Span.nowhere]

/-- A cursor skips tokens of the stream in the same way within surroundings. -/
theorem skip_within {k : Nat} (h : k ≤ c.rest.length) :
    (c.within e).skip k = (c.skip k).within e := by
  induction k generalizing c with
  | zero => rfl
  | succ k ih =>
    have hne : c.rest ≠ [] := fun hnil ↦ by simp [hnil] at h
    have hrest : c.advance.rest = c.rest.drop 1 := rest_skip c 1
    rw [skip, skip, advance_within hne, ih]
    rw [hrest, List.length_drop]
    omega

/-- An error is put on record in the same way within surroundings. -/
theorem report_within (h : c.rejected = []) (f : ParseError) :
    (c.within e).report (recast .bare f) = (c.report f).within e := by
  simp [report, h, within]

/-- At its end a stream has the end of the file as current token. -/
theorem Stands.current_of_nil (h : c.Stands L) (hnil : c.rest = []) :
    c.current.kind = .endOfFile := by
  simp [current, hnil, h.final]

private theorem ne_nil_of_plain (h : c.Stands L) (hp : c.current.kind.isPlain = true) :
    c.rest ≠ [] := by
  intro hnil
  rw [h.current_of_nil hnil] at hp
  contradiction

private theorem At.live (h : c.At L n) (hp : c.current.kind.isPlain = true) : c.Live L n := by
  obtain ⟨t, ts, ht⟩ := List.exists_cons_of_ne_nil (ne_nil_of_plain h.toStands hp)
  refine { h with starts := ?_ }
  simp only [current, ht, List.headD_cons] at hp
  simp only [TokenKind.isPlain, Bool.and_eq_true] at hp
  simp [ht, startsPlainly, hp.2]

/-- After a token that is no layout and no comment the line goes on. -/
theorem At.advance (h : c.At L (n + 1)) (hp : c.current.kind.isPlain = true) :
    c.advance.Live L n := by
  obtain ⟨t, ts, ht⟩ := List.exists_cons_of_ne_nil (ne_nil_of_plain h.toStands hp)
  have hpt : t.kind.isPlain = true := by simpa [current, ht] using hp
  have hl := h.laid
  rw [ht] at hl
  have ho := h.opens
  rw [ht, openBlocks_cons_of_flat] at ho
  · have hlen := h.length_le
    rw [ht, List.length_cons] at hlen
    have hadv : c.advance.rest = ts := by simp [Cursor.advance, ht]
    refine ⟨⟨?_, ?_, ?_, ?_⟩, ?_, ?_⟩
    · exact hadv ▸ hl.2.2.2
    · simpa [Cursor.advance, ht] using h.final
    · simpa [Cursor.advance, ht] using h.rejected
    · exact hadv ▸ ho
    · rw [hadv]; omega
    · exact hadv ▸ hl.2.2.1 hpt
  · intro hk; simp [hk, TokenKind.isPlain, TokenKind.isLayout] at hpt
  · intro hk; simp [hk, TokenKind.isPlain, TokenKind.isLayout] at hpt

/-- What is looked for within a statement is not found where the next one starts. -/
theorem kind_within_iff {kind : TokenKind} (h : c.Stands L) (hstring : ∀ l, kind ≠ .string l)
    (hk : c.rest ≠ [] ∨ kind.continues = true) :
    (c.within e).current.kind = kind ↔ c.current.kind = kind := by
  by_cases hne : c.rest = []
  · have hcont := hk.resolve_left (not_not_intro hne)
    rw [h.current_of_nil hne]
    have hend : kind ≠ .endOfFile := by rintro rfl; contradiction
    refine ⟨fun hw ↦ ?_, fun hw ↦ absurd hw.symm hend⟩
    cases ha : e.after with
    | nil => exact absurd (by simpa [current, hne, ha, within] using hw.symm) hend
    | cons t ts =>
      have hkind : t.kind = kind := by
        simpa [current, hne, ha, bare_eq_iff hstring] using hw
      have starts := e.after_starts t
      simp only [ha, List.find?_cons, hkind] at starts
      simp only [TokenKind.continues, TokenKind.isPlain, Bool.and_eq_true,
        Bool.not_eq_true'] at hcont
      simp [hcont.1.2, hcont.2] at starts
  · rw [current_within hne, kind_recast, bare_eq_iff hstring]

end Cursor

/-! ## Parsers within surroundings -/

section Reads

variable {α β : Type} [Recastable α] [Recastable β] {e : Surroundings} {L n : Nat} {c d : Cursor}

/-- Whether an error at a place says the same within surroundings. At the very end of a stream it
names the token after the stream. -/
def Surroundings.Tells (e : Surroundings) (d : Cursor) (f f' : ParseError) : Prop :=
  d.rest ≠ [] ∨ e.after = [] → f' = recast .bare f

/-- Whether `m` at a cursor does on the stream alone what `m'` does within surroundings: both leave
the cursor at the same token, and what they give is related by `Same`. -/
inductive Mirrors {ρ : Type} (e : Surroundings) (c : Cursor) (Same : Cursor → ρ → ρ → Prop)
    (m m' : StateM Cursor ρ) : Prop
  | intro {r r' : ρ} {d : Cursor} (here : m c = (r, d)) (there : m' (c.within e) = (r', d.within e))
    (follows : c.Follows d) (same : Same d r r')

/-- What a parser gives that leaves the cursor at `d`, on the stream alone and within surroundings.
A value satisfies `R`, and at an error as many blocks are open as before. -/
inductive SameResult (e : Surroundings) (L : Nat) (R : α → Cursor → Prop) (d : Cursor) :
    Except ParseError α → Except ParseError α → Prop
  | ok {x : α} (hR : R x d) : SameResult e L R d (.ok x) (.ok (recast .bare x))
  | error {f f' : ParseError} (stands : d.Stands L) (tells : e.Tells d f f') :
    SameResult e L R d (.error f) (.error f')

/-- Whether a parser at a cursor does on the stream alone what another does within surroundings. -/
abbrev Reads (e : Surroundings) (L : Nat) (c : Cursor) (R : α → Cursor → Prop)
    (p p' : Parser α) : Prop :=
  Mirrors (ρ := Except ParseError α) e c (SameResult e L R) p p'

variable {R : α → Cursor → Prop} {S : β → Cursor → Prop} {p p' : Parser α}
  {k k' : α → Parser β}

/-- The same steps, given by other terms. -/
theorem Mirrors.congr {ρ : Type} {Same : Cursor → ρ → ρ → Prop} {m m' q q' : StateM Cursor ρ}
    (h : Mirrors e c Same m m') (hq : q c = m c) (hq' : q' (c.within e) = m' (c.within e)) :
    Mirrors e c Same q q' :=
  let ⟨here, there, follows, same⟩ := h
  ⟨hq.trans here, hq'.trans there, follows, same⟩

/-- A weaker relation of what both steps give. -/
theorem Mirrors.imp {ρ : Type} {Same Same' : Cursor → ρ → ρ → Prop} {m m' : StateM Cursor ρ}
    (h : Mirrors e c Same m m') (hsame : ∀ d r r', c.Follows d → Same d r r' → Same' d r r') :
    Mirrors e c Same' m m' :=
  let ⟨here, there, follows, same⟩ := h
  ⟨here, there, follows, hsame _ _ _ follows same⟩

/-- A weaker property of what is read and where. -/
theorem Reads.mono {R' : α → Cursor → Prop} (h : Reads e L c R p p')
    (hR : ∀ x d, c.Follows d → R x d → R' x d) : Reads e L c R' p p' :=
  h.imp fun
    | _, _, _, follows, .ok hx => .ok (hR _ _ follows hx)
    | _, _, _, _, .error stands tells => .error stands tells

/-- The bound on the tokens ahead may be that of the start. -/
theorem Reads.bounded {m : Nat} (h : Reads e L c (fun _ d ↦ d.At L m) p p')
    (hn : c.rest.length ≤ n) : Reads e L c (fun _ d ↦ d.At L n) p p' :=
  h.mono fun _ _ follows hd ↦ { hd with length_le := Nat.le_trans follows.length_le hn }

/-- A value that is there already reads nothing. -/
theorem reads_pure {x x' : α} (hx : x' = recast .bare x) (h : R x c) :
    Reads e L c R (pure x : Parser α) (pure x') :=
  ⟨rfl, rfl, .refl c, hx ▸ .ok h⟩

omit [Recastable α] [Recastable β] in
/-- A parser continues with what the first part gives and where it leaves the cursor. -/
theorem Parser.bind_apply {p : Parser α} {r : Except ParseError α} (h : p c = (r, d)) :
    (p >>= k) c = ExceptT.bindCont k r d := by
  change ExceptT.bindCont k (p c).1 (p c).2 = _
  rw [h]

omit [Recastable α] [Recastable β] in
/-- A step continues with what the first part gives and where it leaves the cursor. -/
theorem state_bind {p : StateM Cursor α} {k : α → StateM Cursor β} {x : α} (h : p c = (x, d)) :
    (p >>= k) c = k x d := by
  change k (p c).1 (p c).2 = _
  rw [h]

/-- Parsers one after the other read the same when each of them does. -/
theorem Reads.bind (h : Reads e L c R p p')
    (hk : ∀ x d, R x d → Reads e L d S (k x) (k' (recast .bare x))) :
    Reads e L c S (p >>= k) (p' >>= k') := by
  obtain ⟨here, there, follows, same⟩ := h
  cases same with
  | ok hR =>
    obtain ⟨here', there', follows', same⟩ := hk _ _ hR
    exact ⟨(Parser.bind_apply here).trans here', (Parser.bind_apply there).trans there',
      follows.trans follows', same⟩
  | error stands tells =>
    exact ⟨Parser.bind_apply here, Parser.bind_apply there, follows, .error stands tells⟩

/-- A parser whose value is changed reads the same. -/
theorem Reads.map {f f' : α → β} {I : Cursor → Prop} (h : Reads e L c (fun _ ↦ I) p p')
    (hf : ∀ x, f' (recast .bare x) = recast .bare (f x)) :
    Reads e L c (fun _ ↦ I) (f <$> p) (f' <$> p') := by
  rw [map_eq_pure_bind, map_eq_pure_bind]
  exact h.bind fun x d hd ↦ reads_pure (hf x) hd

end Reads

/-! ## Single tokens -/

namespace Parser

variable {α β : Type} [Recastable α] [Recastable β] {e : Surroundings} {L n : Nat} {c d : Cursor}
  {R : α → Cursor → Prop} {S : β → Cursor → Prop}

/-- A parser may depend on where it starts. -/
theorem cursor_reads {k k' : Cursor → Parser β} (h : Reads e L c S (k c) (k' (c.within e))) :
    Reads e L c S (cursor >>= k) (cursor >>= k') :=
  h.congr rfl rfl

/-- A parser may depend on the kind of the current token. -/
theorem peek_reads {k k' : TokenKind → Parser β} (hne : c.rest ≠ [])
    (hk : Reads e L c S (k c.current.kind) (k' (recast .bare c.current.kind))) :
    Reads e L c S (peek >>= k) (peek >>= k') := by
  refine hk.congr rfl ?_
  change k' (c.within e).current.kind (c.within e) = _
  rw [Cursor.current_within hne]
  rfl

/-- A parser may depend on the kind of the next token. -/
theorem peekNext_reads {k k' : TokenKind → Parser β} (hne : c.rest.tail ≠ [])
    (hk : Reads e L c S (k c.next.kind) (k' (recast .bare c.next.kind))) :
    Reads e L c S (peekNext >>= k) (peekNext >>= k') := by
  refine hk.congr rfl ?_
  change k' (c.within e).next.kind (c.within e) = _
  rw [Cursor.next_within hne]
  rfl

/-- An error that says the same within surroundings. -/
theorem throw_reads_of_tells {f f' : ParseError} (h : c.Stands L) (tells : e.Tells c f f') :
    Reads e L c R (throw f : Parser α) (throw f') :=
  ⟨rfl, rfl, .refl c, .error h tells⟩

/-- An error about tokens of the stream says the same but for its place. -/
theorem throw_reads {f g : ParseError} (h : c.Stands L) (hg : g = recast .bare f) :
    Reads e L c R (throw f : Parser α) (throw g) :=
  throw_reads_of_tells h fun _ ↦ hg

/-- The span of what was read is the same but for its place. -/
theorem spanFrom_reads {first : Span} {k k' : Span → Parser β}
    (h : Reads e L c S (k ⟨first.start, c.lastEnd⟩) (k' .nowhere)) :
    Reads e L c S (spanFrom first >>= k) (spanFrom .nowhere >>= k') :=
  h.congr rfl rfl

/-- A look at the token ahead finds the same, also at the end if the token only continues
statements. -/
theorem at?_reads {kind : TokenKind} {k k' : Bool → Parser β} (h : c.Stands L)
    (hstring : ∀ l, kind ≠ .string l) (hkind : c.rest ≠ [] ∨ kind.continues = true)
    (hk : Reads e L c S (k (decide (c.current.kind = kind)))
      (k' (decide (c.current.kind = kind)))) :
    Reads e L c S (at? kind >>= k) (at? kind >>= k') := by
  refine hk.congr rfl ?_
  change k' (decide ((c.within e).current.kind = kind)) (c.within e) = _
  rw [decide_eq_decide.2 (Cursor.kind_within_iff h hstring hkind)]

/-- An error about the token ahead says the same. -/
theorem unexpected_reads {expected : String} (h : c.Stands L) :
    Reads e L c R (unexpected expected) (unexpected expected) := by
  refine ⟨rfl, rfl, .refl c, .error h fun hd ↦ ?_⟩
  have same : (c.within e).current.kind.describe = c.current.kind.describe
      ∧ (c.within e).current.span = .nowhere := by
    by_cases hne : c.rest = []
    · have ha := hd.resolve_left (not_not_intro hne)
      rw [h.current_of_nil hne]
      simp [Cursor.current, hne, ha, Cursor.within]
    · simp [Cursor.current_within hne]
  rw [same.1, same.2]
  rfl

/-- A token of the stream is taken in the same way. -/
theorem take_reads_of_ne_nil {R : Token → Cursor → Prop} (hne : c.rest ≠ [])
    (hR : R c.current c.advance) : Reads e L c R take take := by
  refine ⟨rfl, ?_, .advance c, .ok hR⟩
  change (Except.ok (c.within e).current, (c.within e).advance) = _
  rw [Cursor.current_within hne, Cursor.advance_within hne]

/-- After a token that is no layout, a token is ahead. -/
theorem take_reads (h : c.At L (n + 1)) (hp : c.current.kind.isPlain = true) :
    Reads e L c (fun _ d ↦ d.Live L n) take take :=
  take_reads_of_ne_nil (Cursor.ne_nil_of_plain h.toStands hp) (h.advance hp)

/-- A token that may be there is taken or not in the same way. -/
theorem take?_reads {kind : TokenKind} (h : c.At L (n + 1)) (hp : kind.isPlain = true)
    (hstring : ∀ l, kind ≠ .string l)
    (hkind : startsPlainly c.rest = true ∨ kind.continues = true) :
    Reads e L c (fun t d ↦ d.At L (n + 1) ∧ (t = none → d = c) ∧ (t.isSome = true → d.Live L n))
      (take? kind) (take? kind) := by
  refine at?_reads h.toStands hstring (hkind.imp_left fun hs hnil ↦ ?_) ?_
  · simp [hnil, startsPlainly] at hs
  · by_cases hk : c.current.kind = kind
    · simp only [hk, decide_true, if_true]
      rw [map_eq_pure_bind]
      exact (take_reads h (hk ▸ hp)).bind fun t d hd ↦
        reads_pure rfl ⟨hd.at.mono (Nat.le_succ n), by simp, fun _ ↦ hd⟩
    · simp only [hk, decide_false]
      exact reads_pure rfl ⟨h, fun _ ↦ rfl, by simp⟩

/-- A token that has to be there is taken or missed in the same way. -/
theorem expect_reads {kind : TokenKind} (h : c.At L (n + 1)) (hp : kind.isPlain = true)
    (hstring : ∀ l, kind ≠ .string l)
    (hkind : startsPlainly c.rest = true ∨ kind.continues = true) :
    Reads e L c (fun _ d ↦ d.Live L n) (expect kind) (expect kind) := by
  refine (take?_reads h hp hstring hkind).bind fun t d ⟨hd, hnone, hsome⟩ ↦ ?_
  cases t with
  | some t => exact reads_pure rfl (hsome rfl)
  | none => exact unexpected_reads hd.toStands

/-- A reserved word is taken or missed in the same way. -/
theorem keyword_reads {word : Keyword} (h : c.Live L (n + 1)) :
    Reads e L c (fun _ d ↦ d.Live L n) (keyword word) (keyword word) :=
  (expect_reads h.at rfl (by simp) (.inl h.starts)).bind fun _ _ hd ↦ reads_pure rfl hd

/-- A symbol is taken or missed in the same way. -/
theorem symbol_reads {mark : Punctuation} (h : c.At L (n + 1))
    (hm : startsPlainly c.rest = true ∨ (TokenKind.symbol mark).continues = true) :
    Reads e L c (fun _ d ↦ d.Live L n) (symbol mark) (symbol mark) :=
  (expect_reads h rfl (by simp) hm).bind fun _ _ hd ↦ reads_pure rfl hd

/-- A symbol that continues a statement is taken or not in the same way. -/
theorem symbol?_reads {mark : Punctuation} (h : c.At L (n + 1))
    (hm : (TokenKind.symbol mark).continues = true) :
    Reads e L c (fun b d ↦ d.At L (n + 1) ∧ (b = false → d = c) ∧ (b = true → d.Live L n))
      (symbol? mark) (symbol? mark) :=
  (take?_reads h rfl (by simp) (.inr hm)).bind fun t d ⟨hd, hnone, hsome⟩ ↦
    reads_pure (isSome_recast _ t) ⟨hd, fun ht ↦ hnone (by simpa using ht), hsome⟩

/-- A look for a symbol that continues a statement, which is only found before the end. -/
theorem atSymbol_reads {mark : Punctuation} {k k' : Bool → Parser β} (h : c.At L n)
    (hm : (TokenKind.symbol mark).continues = true)
    (hno : Reads e L c S (k false) (k' false))
    (hyes : c.Live L n → Reads e L c S (k true) (k' true)) :
    Reads e L c S (atSymbol mark >>= k) (atSymbol mark >>= k') := by
  refine at?_reads h.toStands (by simp) (.inr hm) ?_
  by_cases hk : c.current.kind = .symbol mark
  · simpa [hk] using hyes (h.live (by rw [hk]; rfl))
  · simpa [hk] using hno

/-- A name is read or missed in the same way. -/
theorem name_reads {role : String} (h : c.Live L (n + 1)) :
    Reads e L c (fun _ d ↦ d.Live L n) (name role) (name role) := by
  refine peek_reads h.ne_nil ?_
  cases hk : c.current.kind with
  | identifier text =>
    exact (take_reads h.at (by rw [hk]; rfl)).bind fun _ _ hd ↦ reads_pure rfl hd
  | _ => exact unexpected_reads h.toStands

/-- Where a name is, reading it moves one token on. -/
theorem name_reads_advance {role : String} {text : String} (hne : c.rest ≠ [])
    (hk : c.current.kind = .identifier text) :
    Reads e L c (fun _ d ↦ d = c.advance) (name role) (name role) := by
  refine peek_reads hne ?_
  rw [hk]
  exact (take_reads_of_ne_nil (R := fun _ d ↦ d = c.advance) hne rfl).bind fun _ _ hd ↦
    reads_pure rfl hd

/-- A token that is no layout is not the last one. -/
theorem tail_ne_nil (h : c.At L n) (hp : c.current.kind.isPlain = true) : c.rest.tail ≠ [] := by
  have := ((h.mono (Nat.le_succ n)).advance hp).ne_nil
  rwa [show c.advance.rest = c.rest.drop 1 from Cursor.rest_skip c 1, List.drop_one] at this

/-- A string is read or missed in the same way. -/
theorem string_reads {role : String} (h : c.Live L (n + 1)) :
    Reads e L c (fun _ d ↦ d.Live L n) (string role) (string role) := by
  refine peek_reads h.ne_nil ?_
  cases hk : c.current.kind with
  | string literal =>
    exact (take_reads h.at (by rw [hk]; rfl)).bind fun _ _ hd ↦
      reads_pure (recast_ofLiteral _ _ _).symm hd
  | _ => exact unexpected_reads h.toStands

/-- A condition in stars is read or missed in the same way. -/
theorem discretion_reads {role : String} (h : c.Live L (n + 1)) :
    Reads e L c (fun _ d ↦ d.Live L n) (discretion role) (discretion role) := by
  refine peek_reads h.ne_nil ?_
  cases hk : c.current.kind with
  | discretion literal =>
    exact (take_reads h.at (by rw [hk]; rfl)).bind fun _ _ hd ↦ reads_pure rfl hd
  | _ => exact unexpected_reads h.toStands

end Parser
/-! ## Loops -/

section Loops

variable {α : Type} [Recastable (List α)] {e : Surroundings} {L n : Nat} {c d : Cursor}
  {I J : Cursor → Prop}

/-- What a round from `c` gives that leaves the cursor at `d`, on the stream alone and within
surroundings. The loop goes on where `I` holds and is left where `J` holds. -/
inductive SameRound (e : Surroundings) (L : Nat) (I J : Cursor → Prop) (c d : Cursor) :
    List α × RoundEnd → List α × RoundEnd → Prop
  | again {xs : List α} (hI : I d) (progress : d.rest.length < c.rest.length ∨ J d) :
    SameRound e L I J c d (xs, .again) (recast .bare xs, .again)
  | stop {xs : List α} (hJ : J d) : SameRound e L I J c d (xs, .stop) (recast .bare xs, .stop)
  | fail {xs : List α} {f f' : ParseError} (stands : d.Stands L) (tells : e.Tells d f f') :
    SameRound e L I J c d (xs, .fail f) (recast .bare xs, .fail f')

/-- Whether a round of a loop does on the stream alone what another does within surroundings. -/
abbrev ReadsRound (e : Surroundings) (L : Nat) (c : Cursor) (I J : Cursor → Prop)
    (m m' : StateM Cursor (List α × RoundEnd)) : Prop :=
  Mirrors e c (SameRound e L I J c) m m'

/-- What is gathered up to an error at `d`, if any, on the stream alone and within surroundings. -/
inductive SameGathered (e : Surroundings) (L : Nat) (J : Cursor → Prop) (d : Cursor) :
    List α × Option ParseError → List α × Option ParseError → Prop
  | all {xs : List α} (hJ : J d) : SameGathered e L J d (xs, none) (recast .bare xs, none)
  | some {xs : List α} {f f' : ParseError} (stands : d.Stands L) (tells : e.Tells d f f') :
    SameGathered e L J d (xs, some f) (recast .bare xs, some f')

/-- Whether what gathers values up to an error does on the stream alone what another does within
surroundings. -/
abbrev Gathers (e : Surroundings) (L : Nat) (c : Cursor) (J : Cursor → Prop)
    (p p' : StateM Cursor (List α × Option ParseError)) : Prop :=
  Mirrors e c (SameGathered e L J) p p'

omit [Recastable (List α)] in
/-- After a round that asks for another one, a loop goes on. -/
theorem rounds_again {round : StateM Cursor (List α × RoundEnd)} {xs : List α}
    (h : round c = ((xs, .again), d)) (hlt : d.rest.length < c.rest.length) :
    rounds round c = ((xs ++ (rounds round d).1.1, (rounds round d).1.2), (rounds round d).2) := by
  rw [rounds, h]
  simp [hlt]

omit [Recastable (List α)] in
/-- A round that takes nothing ends a loop, whatever it asks for. -/
theorem rounds_stuck {round : StateM Cursor (List α × RoundEnd)} {xs : List α}
    (h : round c = ((xs, .again), d)) (hlt : ¬ d.rest.length < c.rest.length) :
    rounds round c = ((xs, none), d) := by
  rw [rounds, h]
  simp [hlt]

omit [Recastable (List α)] in
/-- A round that stops ends a loop. -/
theorem rounds_stop {round : StateM Cursor (List α × RoundEnd)} {xs : List α}
    (h : round c = ((xs, .stop), d)) : rounds round c = ((xs, none), d) := by
  rw [rounds, h]

omit [Recastable (List α)] in
/-- A round that fails ends a loop with its error. -/
theorem rounds_fail {round : StateM Cursor (List α × RoundEnd)} {xs : List α} {f : ParseError}
    (h : round c = ((xs, .fail f), d)) : rounds round c = ((xs, some f), d) := by
  rw [rounds, h]

/-- Progress is the same within surroundings. -/
theorem length_within_lt_iff :
    (d.within e).rest.length < (c.within e).rest.length ↔ d.rest.length < c.rest.length := by
  simp

/-- The step of a loop carries over to the loop. -/
theorem rounds_gathers [RecastsParts α] {round round' : StateM Cursor (List α × RoundEnd)}
    (hI : I c) (step : ∀ d, I d → ReadsRound e L d I J round round') :
    Gathers e L c J (rounds round) (rounds round') := by
  induction hc : c.rest.length using Nat.strongRecOn generalizing c with
  | ind k ih =>
    obtain @⟨_, _, d, here, there, follows, same⟩ := step c hI
    cases same with
    | again hId progress =>
      by_cases shorter : d.rest.length < c.rest.length
      · have run := rounds_again here shorter
        have run' := rounds_again there (length_within_lt_iff.2 shorter)
        obtain ⟨here', there', follows', same⟩ := ih d.rest.length (hc ▸ shorter) hId rfl
        rw [here'] at run
        rw [there'] at run'
        refine ⟨run, run', follows.trans follows', ?_⟩
        cases same with
        | all hJ =>
          rw [← recast_append]
          exact .all hJ
        | some stands tells =>
          rw [← recast_append]
          exact .some stands tells
      · exact ⟨rounds_stuck here shorter,
          rounds_stuck there (mt length_within_lt_iff.1 shorter), follows,
          .all (progress.resolve_left shorter)⟩
    | stop hJ => exact ⟨rounds_stop here, rounds_stop there, follows, .all hJ⟩
    | fail stands tells =>
      exact ⟨rounds_fail here, rounds_fail there, follows, .some stands tells⟩

end Loops

/-- The error with which a round of a loop ends. -/
def RoundEnd.error? : RoundEnd → Option ParseError
  | .fail e => some e
  | .again | .stop => none

namespace Parser

variable {α β : Type} [Recastable α] [Recastable β] {e : Surroundings} {L n : Nat} {c d : Cursor}
  {I J : Cursor → Prop}

/-- A round of `many` as a round of a loop. -/
def manyRound (round : Parser (Option α × Bool)) : StateM Cursor (List α × RoundEnd) := do
  match ← round.run with
  | .ok (x, goOn) => return (x.toList, if goOn then .again else .stop)
  | .error f => return ([], .fail f)

/-- What the rounds of `many` end with. -/
def manyResult : (List α × Option ParseError) × Cursor → Except ParseError (List α) × Cursor
  | ((xs, none), d) => (.ok xs, d)
  | ((_, some f), d) => (.error f, d)

omit [Recastable α] in
/-- The loop of a parser is the loop of its rounds. -/
theorem many_apply (round : Parser (Option α × Bool)) (c : Cursor) :
    many round c = manyResult (rounds (manyRound round) c) := rfl

omit [Recastable α] in
/-- A loop without an error gives what its rounds gathered. -/
theorem many_ok {round : Parser (Option α × Bool)} {xs : List α}
    (h : rounds (manyRound round) c = ((xs, none), d)) : many round c = (.ok xs, d) := by
  rw [many_apply, h]
  rfl

omit [Recastable α] in
private theorem many_error {round : Parser (Option α × Bool)} {xs : List α} {f : ParseError}
    (h : rounds (manyRound round) c = ((xs, some f), d)) : many round c = (.error f, d) := by
  rw [many_apply, h]
  rfl

omit [Recastable α] in
/-- A round of a parser that gives something. -/
theorem manyRound_ok {round : Parser (Option α × Bool)} {x : Option α × Bool}
    (h : round c = (.ok x, d)) :
    manyRound round c = ((x.1.toList, if x.2 then .again else .stop), d) :=
  state_bind (p := round.run) h

omit [Recastable α] in
/-- A round of a parser that fails. -/
theorem manyRound_error {round : Parser (Option α × Bool)} {f : ParseError}
    (h : round c = (.error f, d)) : manyRound round c = (([], .fail f), d) :=
  state_bind (p := round.run) h

private theorem manyRound_reads {round round' : Parser (Option α × Bool)} (hIJ : ∀ d, I d → J d)
    (h : Reads e L c (fun x a ↦ if x.2 then I a else J a) round round') :
    ReadsRound e L c I J (manyRound round) (manyRound round') := by
  obtain ⟨here, there, follows, same⟩ := h
  cases same with
  | error stands tells =>
    exact ⟨manyRound_error here, manyRound_error there, follows, .fail stands tells⟩
  | @ok x hR =>
    refine ⟨manyRound_ok here, manyRound_ok there, follows, ?_⟩
    have list : (recast .bare x).1.toList = recast .bare x.1.toList := by
      obtain ⟨_ | _, _⟩ := x <;> rfl
    have flag : (recast .bare x).2 = x.2 := rfl
    rw [list, flag]
    cases hx : x.2 with
    | false =>
      rw [hx] at hR
      exact .stop hR
    | true =>
      rw [hx] at hR
      exact .again hR (.inr (hIJ _ hR))

private theorem many_reads {round round' : Parser (Option α × Bool)} (hI : I c)
    (hIJ : ∀ d, I d → J d)
    (step : ∀ d, I d → Reads e L d (fun x a ↦ if x.2 then I a else J a) round round') :
    Reads e L c (fun _ ↦ J) (many round) (many round') := by
  obtain ⟨here, there, follows, same⟩ :=
    rounds_gathers hI fun d hd ↦ manyRound_reads hIJ (step d hd)
  cases same with
  | all hJ => exact ⟨many_ok here, many_ok there, follows, .ok hJ⟩
  | some stands tells => exact ⟨many_error here, many_error there, follows, .error stands tells⟩

/-- Items between commas are read the same when each of them is. -/
theorem commaList_reads {close : Punctuation} {item item' : Parser α} (h : c.Live L n)
    (hclose : (TokenKind.symbol close).continues = true)
    (hitem : ∀ d, d.Live L n → Reads e L d (fun _ a ↦ a.At L n) item item') :
    Reads e L c (fun _ d ↦ d.Live L n) (commaList close item) (commaList close item') := by
  refine Reads.bind (R := fun _ d ↦ d.At L n)
    (many_reads (I := fun d ↦ d.Live L n) h (fun _ hd ↦ hd.at) fun d hd ↦ ?_) fun xs a ha ↦ ?_
  · refine atSymbol_reads hd.at hclose ((hitem d hd).bind fun x a ha ↦ ?_)
      fun _ ↦ reads_pure rfl hd.at
    refine (symbol?_reads (ha.mono (Nat.le_succ n)) rfl).bind fun b a' ⟨_, hnone, hlive⟩ ↦ ?_
    cases b with
    | false => exact reads_pure rfl (hnone rfl ▸ ha)
    | true => exact reads_pure rfl (hlive rfl)
  · exact (symbol_reads (ha.mono (Nat.le_succ n)) (.inr hclose)).bind fun _ _ hb ↦
      reads_pure rfl hb

/-- Items in parentheses are read the same when each of them is, if there are parentheses. -/
theorem parenthesized?_reads {item item' : Parser α} (h : c.At L n)
    (hitem : ∀ d, d.Live L n → Reads e L d (fun _ a ↦ a.At L n) item item') :
    Reads e L c (fun _ d ↦ d.At L n) (parenthesized? item) (parenthesized? item') := by
  refine (symbol?_reads (h.mono (Nat.le_succ n)) rfl).bind fun b d ⟨_, hnone, hlive⟩ ↦ ?_
  cases b with
  | false => exact reads_pure rfl (hnone rfl ▸ h)
  | true => exact (commaList_reads (hlive rfl) rfl hitem).mono fun _ _ _ hd ↦ hd.at

/-- Items are read the same while a condition holds, when each of them is. -/
theorem manyWhile_reads {continues continues' : Parser Bool} 
    {item item' : Parser α} (hI : I c)
    (hcontinues : ∀ d, I d →
      Reads e L d (fun b a ↦ I a ∧ (b = true → J a)) continues continues')
    (hitem : ∀ d, J d → Reads e L d (fun _ ↦ I) item item') :
    Reads e L c (fun _ ↦ I) (manyWhile continues item) (manyWhile continues' item') :=
  many_reads hI (fun _ hd ↦ hd) fun d hd ↦ (hcontinues d hd).bind fun b a ⟨ha, hJ⟩ ↦ by
    cases b with
    | false => exact reads_pure rfl ha
    | true => exact (hitem a (hJ rfl)).bind fun x a' ha' ↦ reads_pure rfl ha'

end Parser

/-! ## Results that do not depend on the cursor -/

section Except

variable {α : Type} [Recastable α] {e : Surroundings} {L : Nat} {c : Cursor} {R : α → Cursor → Prop}

/-- A value computed from what was read is the same, or the error says the same. -/
theorem lift_reads {r r' : Except ParseError α} (h : c.Stands L) (hr : r' = recast .bare r)
    (hR : ∀ x, r = .ok x → R x c) :
    Reads e L c R (liftM r : Parser α) (liftM r' : Parser α) := by
  subst hr
  cases r with
  | ok x => exact ⟨rfl, rfl, .refl c, .ok (hR x rfl)⟩
  | error f => exact ⟨rfl, rfl, .refl c, .error h fun _ ↦ rfl⟩

end Except

end ProseLang
