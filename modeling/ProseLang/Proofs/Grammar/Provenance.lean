import ProseLang.Proofs.Grammar.Spans
import ProseLang.Proofs.Grammar.Surroundings
import ProseLang.Proofs.Program.Leaves

/-!
# What readers find in the tokens

`Gives ts P p` says of a parser `p` that whatever it gives at a cursor whose tokens are among `ts`
has the property `P`, and that it leaves the cursor among these tokens. The judgement composes along
`>>=`, so that there is one lemma for each production. Nothing is asked of the stream: the tokens
may stand in any order, and reading may go on after errors.

This module has the judgement and the lemmas that hold for whatever is read; what programs are made
of is read in the modules that follow.
-/

namespace ProseLang

/-- Whether the tokens ahead of a cursor are among some tokens, except for layout. -/
structure Cursor.Within (ts : List Token) (c : Cursor) : Prop where
  ahead : ∀ t ∈ c.rest, t.kind.isLayout = false → t ∈ ts
  final : c.final.kind.isLayout = true

namespace Cursor.Within

variable {ts us : List Token} {c : Cursor}

/-- Tokens among fewer are among more. -/
theorem mono (h : c.Within ts) (sub : ts ⊆ us) : c.Within us :=
  ⟨fun t ht visible ↦ sub (h.ahead t ht visible), h.final⟩

/-- The current token is among the tokens, unless it is layout. -/
theorem current (h : c.Within ts) (visible : c.current.kind.isLayout = false) : c.current ∈ ts := by
  cases hc : c.rest with
  | nil =>
    have isFinal : c.current = c.final := by rw [Cursor.current, hc]; rfl
    rw [isFinal, h.final] at visible
    cases visible
  | cons t rest =>
    have isHead : c.current = t := by rw [Cursor.current, hc]; rfl
    rw [isHead] at visible ⊢
    exact h.ahead t (by rw [hc]; exact List.mem_cons_self) visible

/-- The token at the cursor, of which only the kind is known. -/
theorem mem_of_kind (h : c.Within ts) {kind : TokenKind} (hk : c.current.kind = kind)
    (visible : kind.isLayout = false) : ⟨kind, c.current.span⟩ ∈ ts := by
  subst hk
  exact h.current visible

/-- A token that is no layout is ahead, not the end of the stream. -/
theorem ne_nil (h : c.Within ts) (visible : c.current.kind.isLayout = false) : c.rest ≠ [] := by
  intro hc
  have isFinal : c.current = c.final := by rw [Cursor.current, hc]; rfl
  rw [isFinal, h.final] at visible
  cases visible

/-- A token further on, a cursor is among the same tokens. -/
theorem advance (h : c.Within ts) : c.advance.Within ts := by
  cases hc : c.rest with
  | nil =>
    have same : c.advance = c := by rw [Cursor.advance, hc]
    rwa [same]
  | cons t rest =>
    rw [Cursor.advance, hc]
    refine ⟨fun u hu ↦ ?_, h.final⟩
    exact h.ahead u (by rw [hc]; exact List.mem_cons_of_mem t hu)

private theorem skip (h : c.Within ts) (n : Nat) : (c.skip n).Within ts := by
  induction n generalizing c with
  | zero => exact h
  | succ n ih => exact ih h.advance

/-- An error on record moves no cursor. -/
theorem report (h : c.Within ts) (e : ParseError) : (c.report e).Within ts := by
  unfold Cursor.report
  split
  · exact h
  · exact ⟨h.ahead, h.final⟩

/-- Where parsing resumes, a cursor is among the same tokens. -/
theorem recover (h : c.Within ts) (e : ParseError) : (c.recover e).Within ts := (h.report e).skip _

/-- Past ends of lines, a cursor is among the same tokens. -/
theorem skipNewlines (h : c.Within ts) : c.skipNewlines.Within ts := h.skip _

/-- Past comments, a cursor is among the same tokens. -/
theorem skipComments (h : c.Within ts) : c.skipComments.Within ts := h.skip _

end Cursor.Within

section

variable {α β : Type} {ts : List Token} {c : Cursor} {P : α → Prop} {Q : β → Prop}

/-- Whether a step keeps a cursor among some tokens and gives what has a property. -/
def FindsAt (ts : List Token) (c : Cursor) (P : α → Prop) (m : StateM Cursor α) : Prop :=
  (m c).2.Within ts ∧ P (m c).1

/-- Whether a step keeps every cursor among some tokens and gives what has a property. -/
def Finds (ts : List Token) (P : α → Prop) (m : StateM Cursor α) : Prop :=
  ∀ c, c.Within ts → FindsAt ts c P m

/-- Whether a parser keeps a cursor among some tokens, and what it gives there has a property. -/
def GivesAt (ts : List Token) (c : Cursor) (P : α → Prop) (p : Parser α) : Prop :=
  (p c).2.Within ts ∧ ∀ x, (p c).1 = .ok x → P x

/-- Whether a parser keeps every cursor among some tokens, and what it gives has a property. -/
def Gives (ts : List Token) (P : α → Prop) (p : Parser α) : Prop :=
  ∀ c, c.Within ts → GivesAt ts c P p

/-! ## Composition -/

/-- A step of which the first part is known. -/
theorem FindsAt.bind {m : StateM Cursor α} {k : α → StateM Cursor β} {x : α} {d : Cursor}
    (run : m c = (x, d)) (h : FindsAt ts d Q (k x)) : FindsAt ts c Q (m >>= k) := by
  rwa [FindsAt, state_bind run]

namespace Finds

/-- A step that does nothing gives what it is told. -/
theorem pure {x : α} (h : P x) : Finds ts P (pure x) := fun _ hc ↦ ⟨hc, h⟩

/-- One step after another gives what the second one gives. -/
theorem bind {m : StateM Cursor α} {k : α → StateM Cursor β} (hm : Finds ts P m)
    (hk : ∀ x, P x → Finds ts Q (k x)) : Finds ts Q (m >>= k) := by
  intro c hc
  obtain ⟨within, found⟩ := hm c hc
  exact hk _ found _ within

/-- A step that moves the cursor among the same tokens. -/
theorem move {k : Unit → StateM Cursor β} {f : Cursor → Cursor}
    (hf : ∀ c, c.Within ts → (f c).Within ts) (hk : Finds ts Q (k ())) :
    Finds ts Q (modify f >>= k) :=
  fun c hc ↦ hk (f c) (hf c hc)

/-- A step may depend on where it starts. -/
theorem cursor {k : Cursor → StateM Cursor β} (h : ∀ c, Finds ts Q (k c)) :
    Finds ts Q (get >>= k) := fun c hc ↦ h c c hc

/-- A parser as a step that gives a value or an error. -/
theorem of_gives {p : Parser α} (h : Gives ts P p) :
    Finds ts (fun r ↦ ∀ x, r = .ok x → P x) p.run := h

end Finds

/-- One parser after another, from a cursor on. -/
theorem GivesAt.bind {p : Parser α} {k : α → Parser β} (hp : GivesAt ts c P p)
    (hk : ∀ x, P x → Gives ts Q (k x)) : GivesAt ts c Q (p >>= k) := by
  obtain ⟨within, found⟩ := hp
  change (ExceptT.bindCont k (p c).1 (p c).2).2.Within ts
    ∧ ∀ x, (ExceptT.bindCont k (p c).1 (p c).2).1 = .ok x → Q x
  cases hr : (p c).1 with
  | ok x => exact hk x (found x hr) _ within
  | error e => exact ⟨within, nofun⟩

namespace Gives

/-- A value that is there already. -/
theorem pure {x : α} (h : P x) : Gives ts P (pure x) :=
  fun _ hc ↦ ⟨hc, fun _ eq ↦ (Except.ok.inj eq) ▸ h⟩

/-- An error gives nothing, so there is nothing to show of it. -/
theorem throw (e : ParseError) : Gives ts P (throw e : Parser α) := fun _ hc ↦ ⟨hc, nofun⟩

/-- One parser after another gives what the second one gives. -/
theorem bind {p : Parser α} {k : α → Parser β} (hp : Gives ts P p)
    (hk : ∀ x, P x → Gives ts Q (k x)) : Gives ts Q (p >>= k) :=
  fun c hc ↦ (hp c hc).bind hk

/-- A parser whose value is changed. -/
theorem map {p : Parser α} {f : α → β} (hp : Gives ts P p) (hf : ∀ x, P x → Q (f x)) :
    Gives ts Q (f <$> p) := by
  rw [map_eq_pure_bind]
  exact hp.bind fun x hx ↦ .pure (hf x hx)

/-- A weaker property of what is given. -/
theorem imp {P' : α → Prop} {p : Parser α} (hp : Gives ts P p) (h : ∀ x, P x → P' x) :
    Gives ts P' p :=
  fun c hc ↦ ⟨(hp c hc).1, fun x hx ↦ h x ((hp c hc).2 x hx)⟩

/-- Looking at the token at the cursor takes none. -/
theorem peek {k : TokenKind → Parser β}
    (h : ∀ c, c.Within ts → GivesAt ts c Q (k c.current.kind)) : Gives ts Q (Parser.peek >>= k) := h

/-- A parser may depend on the kind of the next token. -/
theorem peekNext {k : TokenKind → Parser β} (h : ∀ kind, Gives ts Q (k kind)) :
    Gives ts Q (Parser.peekNext >>= k) := fun c hc ↦ h _ c hc

/-- A parser may depend on where it starts. -/
theorem cursor {k : Cursor → Parser β} (h : ∀ c, Gives ts Q (k c)) :
    Gives ts Q (Parser.cursor >>= k) := fun c hc ↦ h c c hc

/-- The span of what was read may be any. -/
theorem spanFrom {first : Span} {k : Span → Parser β} (h : ∀ span, Gives ts Q (k span)) :
    Gives ts Q (Parser.spanFrom first >>= k) := fun c hc ↦ h _ c hc

/-- A look at the token ahead may find either. -/
theorem at? {kind : TokenKind} {k : Bool → Parser β} (h : ∀ b, Gives ts Q (k b)) :
    Gives ts Q (Parser.at? kind >>= k) := fun c hc ↦ h _ c hc

/-- A parser that moves the cursor among the same tokens. -/
theorem move {f : Cursor → Cursor} {k : Unit → Parser β}
    (hf : ∀ c, c.Within ts → (f c).Within ts) (h : Gives ts Q (k ())) :
    Gives ts Q (Parser.move f >>= k) := fun c hc ↦ h (f c) (hf c hc)

/-- A value computed from what was read. -/
theorem lift {r : Except ParseError α} (h : ∀ x, r = .ok x → P x) :
    Gives ts P (liftM r : Parser α) := fun _ hc ↦ ⟨hc, h⟩

/-- A step as a parser. -/
theorem of_finds {m : StateM Cursor α} (h : Finds ts P m) : Gives ts P (liftM m) := by
  intro c hc
  obtain ⟨within, found⟩ := h c hc
  exact ⟨within, fun _ eq ↦ (Except.ok.inj eq) ▸ found⟩

/-- An error about the token ahead gives nothing. -/
theorem unexpected (expected : String) : Gives ts P (Parser.unexpected expected : Parser α) :=
  fun _ hc ↦ ⟨hc, nofun⟩

/-- An error about a missing block gives nothing. -/
theorem missingBlock (construct : Construct) :
    Gives ts P (Parser.missingBlock construct : Parser α) := fun _ hc ↦ ⟨hc, nofun⟩

/-- Taking the token at the cursor, which is known to be visible. -/
theorem take_at (hc : c.Within ts) (visible : c.current.kind.isLayout = false)
    {k : Token → Parser β} (h : c.current ∈ ts → Gives ts Q (k c.current)) :
    GivesAt ts c Q (Parser.take >>= k) := h (hc.current visible) _ hc.advance

/-- Any token may be taken. -/
theorem take {k : Token → Parser β} (h : ∀ t, Gives ts Q (k t)) :
    Gives ts Q (Parser.take >>= k) := fun _ hc ↦ h _ _ hc.advance

end Gives

/-! ## Tokens -/

/-- A token that may be there is one of the tokens. -/
theorem take?_gives (kind : TokenKind) (visible : kind.isLayout = false) :
    Gives ts (fun r ↦ ∀ t ∈ r, t.kind = kind ∧ t ∈ ts) (Parser.take? kind) := by
  intro c hc
  rw [GivesAt, Parser.take?_apply]
  split
  · next hk =>
    refine ⟨hc.advance, ?_⟩
    rintro _ ⟨⟩ t ⟨⟩
    exact ⟨hk, hc.current (by rw [hk]; exact visible)⟩
  · refine ⟨hc, ?_⟩
    rintro _ ⟨⟩ t ht
    cases ht

/-- A token that has to be there is one of the tokens. -/
theorem expect_gives (kind : TokenKind) (visible : kind.isLayout = false) :
    Gives ts (fun t ↦ t.kind = kind ∧ t ∈ ts) (Parser.expect kind) := by
  refine (take?_gives kind visible).bind fun r hr ↦ ?_
  cases r with
  | none => exact .unexpected _
  | some t => exact .pure (hr t rfl)

/-- Layout may be taken as well. -/
theorem expect_layout (kind : TokenKind) : Gives ts (fun _ ↦ True) (Parser.expect kind) := by
  refine Gives.bind (P := fun _ ↦ True) ?_ fun r _ ↦ ?_
  · intro c hc
    rw [GivesAt, Parser.take?_apply]
    split
    · exact ⟨hc.advance, fun _ _ ↦ trivial⟩
    · exact ⟨hc, fun _ _ ↦ trivial⟩
  · cases r with
    | none => exact .unexpected _
    | some t => exact .pure trivial

/-- A reserved word is read from a token. -/
theorem keyword_gives (word : Keyword) :
    Gives ts (fun span ↦ Leaf.IsRead ts (.keyword word span)) (Parser.keyword word) := by
  refine (expect_gives (.keyword word) rfl).bind fun t ht ↦ .pure ?_
  rcases t with ⟨kind, span⟩
  obtain ⟨rfl, member⟩ := ht
  exact member

/-- A symbol gives nothing to show. -/
theorem symbol_gives (mark : Punctuation) : Gives ts (fun _ ↦ True) (Parser.symbol mark) :=
  (expect_layout _).bind fun _ _ ↦ .pure trivial

/-- A symbol that may be there gives nothing to show. -/
theorem symbol?_gives (mark : Punctuation) : Gives ts (fun _ ↦ True) (Parser.symbol? mark) :=
  (take?_gives (.symbol mark) rfl).bind fun _ _ ↦ .pure trivial

/-- A look for a symbol gives nothing to show. -/
theorem atSymbol_gives (mark : Punctuation) : Gives ts (fun _ ↦ True) (Parser.atSymbol mark) :=
  fun _ hc ↦ ⟨hc, fun _ _ ↦ trivial⟩

/-- A name is read from a token. -/
theorem name_gives (role : String) :
    Gives ts (fun x ↦ Leaf.IsRead ts (.name x)) (Parser.name role) := by
  refine .peek fun c hc ↦ ?_
  split
  · next text hk =>
    refine Gives.take_at hc (by rw [hk]; rfl) fun member ↦ .pure ?_
    exact hc.mem_of_kind hk rfl
  · exact Gives.unexpected role c hc

/-- A string is read from a token. -/
theorem string_gives (role : String) :
    Gives ts (fun s ↦ Leaf.IsRead ts (.string s)) (Parser.string role) := by
  refine .peek fun c hc ↦ ?_
  split
  · next literal hk =>
    refine Gives.take_at hc (by rw [hk]; rfl) fun member ↦ .pure ?_
    exact ⟨literal, hc.mem_of_kind hk rfl, rfl⟩
  · exact Gives.unexpected role c hc

/-- A condition in stars is read from a token. -/
theorem discretion_gives (role : String) :
    Gives ts (fun d ↦ Leaf.IsRead ts (.discretion d)) (Parser.discretion role) := by
  refine .peek fun c hc ↦ ?_
  split
  · next literal hk =>
    refine Gives.take_at hc (by rw [hk]; rfl) fun member ↦ .pure ?_
    exact ⟨literal, hc.mem_of_kind hk rfl, rfl⟩
  · exact Gives.unexpected role c hc

/-- Digits that count something. -/
theorem isRead_countOf {digits : Located String} {n : Located Nat}
    (h : Leaf.IsRead ts (.numeral digits)) (counts : Parser.countOf digits = .ok n) :
    Leaf.IsRead ts (.count n) := by
  unfold Parser.countOf at counts
  split at counts
  · next m found =>
    cases counts
    exact ⟨digits.val, h, (Option.filter_eq_some_iff.1 found).1⟩
  · cases counts

/-- A number is read from a token. -/
theorem count_gives (role : String) :
    Gives ts (fun n ↦ Leaf.IsRead ts (.count n)) (Parser.count role) := by
  refine .peek fun c hc ↦ ?_
  split
  · next digits hk =>
    refine Gives.take_at hc (by rw [hk]; rfl) fun member ↦ .lift fun n counts ↦ ?_
    have read : Leaf.IsRead ts (.numeral ⟨digits, c.current.span⟩) := hc.mem_of_kind hk rfl
    exact isRead_countOf read counts
  · exact Gives.unexpected role c hc

/-! ## Loops -/

/-- What the rounds of a loop find it finds. -/
theorem rounds_finds {round : StateM Cursor (List α × RoundEnd)}
    (h : Finds ts (fun r ↦ ∀ x ∈ r.1, P x) round) :
    Finds ts (fun r ↦ ∀ x ∈ r.1, P x) (rounds round) := by
  intro c hc
  rw [FindsAt]
  fun_induction rounds round c with
  | case1 c xs c' run | case2 c xs e c' run | case4 c xs c' run =>
    have found := h c hc
    rwa [FindsAt, run] at found
  | case3 c xs c' run shorter ys e c'' rest ih =>
    have found := h c hc
    rw [FindsAt, run] at found
    obtain ⟨within, here⟩ := found
    have later := ih within
    rw [rest] at later
    refine ⟨later.1, fun x hx ↦ ?_⟩
    rcases List.mem_append.1 hx with hx | hx
    · exact here x hx
    · exact later.2 x hx

private theorem many_gives {round : Parser (Option α × Bool)}
    (h : Gives ts (fun r ↦ ∀ x ∈ r.1, P x) round) :
    Gives ts (fun xs ↦ ∀ x ∈ xs, P x) (Parser.many round) := by
  have step : Finds ts (fun r ↦ ∀ x ∈ r.1, P x) (Parser.manyRound round) := by
    refine Finds.bind (.of_gives h) fun r hr ↦ ?_
    rcases r with e | ⟨x, goOn⟩
    · exact .pure (by simp)
    · exact .pure (by simpa using hr _ rfl)
  intro c hc
  have gathered := rounds_finds step c hc
  rw [FindsAt] at gathered
  rw [GivesAt, Parser.many_apply]
  generalize rounds (Parser.manyRound round) c = result at gathered
  obtain ⟨within, found⟩ := gathered
  rcases result with ⟨⟨xs, e | e⟩, d⟩
  · exact ⟨within, fun _ eq ↦ (Except.ok.inj eq) ▸ found⟩
  · exact ⟨within, nofun⟩

/-- Items that are read while a condition holds have what each of them has. -/
theorem manyWhile_gives {continues : Parser Bool} {item : Parser α}
    (hcontinues : Gives ts (fun _ ↦ True) continues) (hitem : Gives ts P item) :
    Gives ts (fun xs ↦ ∀ x ∈ xs, P x) (Parser.manyWhile continues item) := by
  refine many_gives (hcontinues.bind fun b _ ↦ ?_)
  cases b with
  | false => exact .pure nofun
  | true => exact hitem.bind fun x hx ↦ .pure (by simpa using hx)

/-- Items between commas have what each of them has. -/
theorem commaList_gives (close : Punctuation) {item : Parser α} (hitem : Gives ts P item) :
    Gives ts (fun xs ↦ ∀ x ∈ xs, P x) (Parser.commaList close item) := by
  have round : Gives ts (fun r : Option α × Bool ↦ ∀ x ∈ r.1, P x) (do
      if ← Parser.atSymbol close then return (none, false)
      let x ← item
      return (some x, ← Parser.symbol? .comma)) := by
    refine (atSymbol_gives close).bind fun b _ ↦ ?_
    cases b with
    | true => exact .pure nofun
    | false =>
      refine hitem.bind fun x hx ↦ ?_
      exact (symbol?_gives .comma).bind fun _ _ ↦ .pure (by simpa using hx)
  refine (many_gives round).bind fun xs hxs ↦ ?_
  exact (symbol_gives close).bind fun _ _ ↦ .pure hxs

/-- Items in parentheses have what each of them has, if there are parentheses. -/
theorem parenthesized?_gives {item : Parser α} (hitem : Gives ts P item) :
    Gives ts (fun xs ↦ ∀ x ∈ xs, P x) (Parser.parenthesized? item) := by
  refine (symbol?_gives .leftParen).bind fun b _ ↦ ?_
  cases b with
  | true => exact commaList_gives .rightParen hitem
  | false => exact .pure nofun

/-- What the rounds of a loop have read is kept when one fails. -/
theorem Gives.gather {m : StateM Cursor (List α × Option ParseError)}
    (h : Finds ts (fun r ↦ ∀ x ∈ r.1, P x) m) :
    Gives ts (fun xs ↦ ∀ x ∈ xs, P x) (fun c ↦
      let ((read, _), c') := m c
      (.ok read, c')) := by
  intro c hc
  obtain ⟨within, found⟩ := h c hc
  exact ⟨within, fun _ eq ↦ (Except.ok.inj eq) ▸ found⟩

/-- A parser that recovers gives what it gives without, or nothing. -/
theorem recovering_finds {p : Parser α} (hp : Gives ts P p) :
    Finds ts (fun r ↦ ∀ x ∈ r, P x) (Parser.recovering p) := by
  refine Finds.bind (.of_gives hp) fun r hr ↦ ?_
  rcases r with e | x
  · exact .move (fun c hc ↦ hc.recover e) (.pure nofun)
  · exact .pure (by simpa using hr x rfl)

/-- The end of a statement gives nothing to show. -/
theorem endStatement_gives : Gives ts (fun _ ↦ True) Parser.endStatement := by
  refine .cursor fun c ↦ ?_
  split
  · exact .pure trivial
  · exact .pure trivial
  · refine .peek fun c hc ↦ ?_
    split
    · exact Gives.take (fun _ ↦ .pure trivial) c hc
    · exact Gives.pure trivial c hc
    · exact Gives.pure trivial c hc
    · exact Gives.unexpected _ c hc

end

end ProseLang
