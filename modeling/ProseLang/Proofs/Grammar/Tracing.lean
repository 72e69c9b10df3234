import ProseLang.Proofs.Grammar.Fitting
import ProseLang.Proofs.Grammar.Provenance

/-!
# Where readers find what they give

`Traces ts m Q p` says of a parser `p` that, wherever it starts behind the offset `m` in a stream in
order, it stays in that stream, never goes back, and that whatever it gives has the property `Q` of
the offset where it stops. What is read between two cursors so comes with two offsets that it lies
between, and what the rounds of a loop read comes with offsets in between (`Joins`). An error is not
asked where it stands, only that it goes from the edge of one token to the edge of another
(`Conclusion`). Nothing is asked of what the tokens say, and reading may go on after errors.
-/

namespace ProseLang

/-- Whether some tokens go forward, and the names in the strings among them lie within these strings
one after the other. -/
structure Forthright (ts : List Token) : Prop where
  forward : ∀ t ∈ ts, t.span.start.offset ≤ t.span.stop.offset
  within : ∀ literal span, (⟨.string literal, span⟩ : Token) ∈ visible ts → ∀ hole ∈ literal.holes,
    hole.2.Between span.start.offset span.stop.offset
  ordered : ∀ literal span, (⟨.string literal, span⟩ : Token) ∈ visible ts →
    literal.holes.Pairwise fun a b ↦ a.2.stop.offset ≤ b.2.start.offset

namespace Forthright

variable {ts : List Token}

private theorem anchored (h : Forthright ts) {t : Token} (ht : t ∈ ts) : t.span.Anchored ts :=
  ⟨Token.isEdge_start ht, Token.isEdge_stop ht, h.forward t ht⟩

/-- A name in a string stands within it. -/
theorem stands (h : Forthright ts) {literal : StringLiteral} {span : Span}
    (ht : ⟨.string literal, span⟩ ∈ visible ts) {hole : String × Span}
    (hhole : hole ∈ literal.holes) : hole.2.Stands ts span.start.offset span.stop.offset := by
  have place := h.within literal span ht hole hhole
  have member : hole.2 ∈ (⟨.string literal, span⟩ : Token).places :=
    List.mem_cons_of_mem _ (List.mem_append_left _ (List.mem_map_of_mem hhole))
  have among := (mem_visible.1 ht).1
  exact ⟨place, ⟨_, among, _, member, .inl rfl⟩, ⟨_, among, _, member, .inr rfl⟩,
    Nat.le_of_lt place.room⟩

end Forthright

/-- Whether a step that may fail gives what has a property, or an error among some tokens. -/
def Conclusion {α : Type} (ts : List Token) (P : α → Prop) : Except ParseError α → Prop
  | .ok x => P x
  | .error e => e.span.Anchored ts

/-- Whether what is given with an error, or without one, has a property, and the error is one among
some tokens. -/
structure Delivered {α : Type} (ts : List Token) (P : α → Prop) (r : α × Option ParseError) :
    Prop where
  read : P r.1
  error : ∀ e ∈ r.2, e.span.Anchored ts

namespace Delivered

variable {α : Type} {ts : List Token} {P : α → Prop} {x : α} {e : ParseError}

/-- What is given without an error. -/
theorem done (h : P x) : Delivered ts P (x, none) :=
  ⟨h, fun e he ↦ absurd he (Option.not_mem_none e)⟩

/-- What is given with an error among the tokens. -/
theorem failed (h : P x) (he : e.span.Anchored ts) : Delivered ts P (x, some e) :=
  ⟨h, fun _ same ↦ Option.mem_some.1 same ▸ he⟩

end Delivered

section

variable {α β : Type} {ts : List Token} {P Q : α → Prop}

/-- A weaker property of what is given. -/
theorem Conclusion.imp {r : Except ParseError α} (h : Conclusion ts P r) (hP : ∀ x, P x → Q x) :
    Conclusion ts Q r := by
  cases r with
  | ok x => exact hP x h
  | error e => exact h

/-- One computation after another, each with its errors among the tokens. -/
theorem Conclusion.bind {Q : β → Prop} {r : Except ParseError α} {k : α → Except ParseError β}
    (h : Conclusion ts P r) (hk : ∀ x, P x → Conclusion ts Q (k x)) :
    Conclusion ts Q (r >>= k) := by
  cases r with
  | ok x => exact hk x h
  | error e => exact h

/-- A step that is taken for each thing of a list keeps what is known of the things left. -/
theorem Conclusion.foldlM {f : β → α → Except ParseError β} {I : β → List α → Prop}
    (step : ∀ b x xs, I b (x :: xs) → Conclusion ts (fun b' ↦ I b' xs) (f b x)) {xs : List α}
    {b : β} (h : I b xs) : Conclusion ts (fun b' ↦ I b' []) (xs.foldlM f b) := by
  induction xs generalizing b with
  | nil => exact h
  | cons x xs ih =>
    rw [List.foldlM_cons]
    exact (step b x xs h).bind fun b' hb' ↦ ih hb'

end

namespace Cursor

/-- Whether a cursor stands among some tokens in order, behind the last one taken. -/
structure Orderly (ts : List Token) (c : Cursor) : Prop extends c.Within (visible ts) where
  among : ∀ t ∈ c.final :: c.rest, t ∈ ts
  order : InOrder c.rest
  behind : ∀ t ∈ visible c.rest, c.lastEnd.offset ≤ t.span.start.offset
  ended : 0 < c.lastEnd.offset → c.lastEnd.IsEdge ts
  errors : ∀ e ∈ c.errors, e.span.Anchored ts
  tokens : Forthright ts

/-- Whether a cursor stands in order, no further back than another. -/
structure Onward (ts : List Token) (c d : Cursor) : Prop where
  orderly : d.Orderly ts
  grows : c.lastEnd.offset ≤ d.lastEnd.offset

variable {ts : List Token} {a c d : Cursor} {m : Nat}

/-- A cursor that is moved onward twice is moved onward. -/
theorem Onward.trans (h : c.Onward ts d) (h' : d.Onward ts a) : c.Onward ts a :=
  ⟨h'.orderly, Nat.le_trans h.grows h'.grows⟩

namespace Orderly

/-- A cursor in order is onward from itself. -/
theorem refl (h : c.Orderly ts) : c.Onward ts c := ⟨h, Nat.le_refl _⟩

private theorem current_mem (h : c.Orderly ts) : c.current ∈ ts := by
  cases hc : c.rest with
  | nil =>
    rw [current, hc]
    exact h.among _ List.mem_cons_self
  | cons t rest =>
    rw [current, hc]
    exact h.among _ (by simp [hc])

/-- An error about the current token is one among the tokens. -/
theorem anchored_current (h : c.Orderly ts) : c.current.span.Anchored ts :=
  h.tokens.anchored h.current_mem

/-- The token at the cursor stands between the tokens taken before and those left after it. -/
theorem stands_current (h : c.Orderly ts) (shows : c.current.kind.isLayout = false) :
    c.current.span.Stands ts c.lastEnd.offset c.advance.lastEnd.offset := by
  obtain ⟨t, rest, hc⟩ := List.exists_cons_of_ne_nil (h.ne_nil shows)
  have isHead : c.current = t := by rw [current, hc]; rfl
  have anchored := h.anchored_current
  rw [isHead] at shows anchored ⊢
  have member : t ∈ visible c.rest := by
    rw [hc]
    exact mem_visible.2 ⟨List.mem_cons_self, shows⟩
  have last : c.advance.lastEnd = t.span.stop := by simp [advance, hc, shows]
  exact ⟨⟨h.behind t member, h.order.nonempty t member, Nat.le_of_eq (by rw [last])⟩, anchored⟩

/-- A construct may start with the token at the cursor. -/
theorem leads (h : c.Orderly ts) (shows : c.current.kind.isLayout = false)
    (own : c.current.kind.isAside = false) {n : Nat} (place : c.current.span.Stands ts m n)
    {opener : Option Keyword} (opens : ∀ word ∈ opener, c.current.kind = .keyword word) :
    c.current.span.Leads ts m n opener where
  place := place
  begins := ⟨c.current, h.current shows, rfl, own⟩
  opens word hword := ⟨c.current, h.current_mem, opens word hword, rfl⟩

/-- A cursor in order is moved onward over a token. -/
theorem advance (h : c.Orderly ts) : c.Onward ts c.advance := by
  have within := h.toWithin.advance
  cases hc : c.rest with
  | nil =>
    have same : c.advance = c := by rw [Cursor.advance, hc]
    rw [same]
    exact h.refl
  | cons t rest =>
    have order := h.order
    have behind := h.behind
    have among : ∀ u ∈ c.final :: rest, u ∈ ts := by
      intro u hu
      refine h.among u ?_
      rw [hc]
      grind
    rw [hc] at order behind
    cases layout : t.kind.isLayout with
    | true =>
      rw [visible_cons_of_layout rest layout] at behind
      rw [Cursor.advance, hc] at within ⊢
      simp only [layout, if_true] at within ⊢
      exact ⟨⟨within, among, order.tail, behind, h.ended, h.errors, h.tokens⟩, Nat.le_refl _⟩
    | false =>
      have shows : c.current.kind.isLayout = false := by rwa [current, hc]
      have place := h.stands_current shows
      have member : t ∈ ts := h.among t (by simp [hc])
      rw [Cursor.advance, hc] at within place ⊢
      simp only [layout, Bool.false_eq_true, if_false] at within place ⊢
      refine ⟨⟨within, among, order.tail, order.after_head layout, ?_, h.errors, h.tokens⟩, ?_⟩
      · exact fun _ ↦ Token.isEdge_stop member
      · exact Nat.le_trans place.left (Nat.le_trans (Nat.le_of_lt place.room) place.right)

private theorem skip (h : c.Orderly ts) (n : Nat) : c.Onward ts (c.skip n) := by
  induction n generalizing c with
  | zero => exact h.refl
  | succ n ih => exact h.advance.trans (ih h.advance.orderly)

/-- An error among the tokens on record moves no cursor. -/
theorem report (h : c.Orderly ts) {e : ParseError} (he : e.span.Anchored ts) :
    c.Onward ts (c.report e) := by
  unfold Cursor.report
  split
  · exact h.refl
  · refine ⟨{ h with errors := fun e' he' ↦ ?_ }, Nat.le_refl _⟩
    rcases List.mem_append.1 he' with he' | he'
    · exact h.errors e' he'
    · exact List.mem_singleton.1 he' ▸ he

/-- An error among the tokens is recovered from onward. -/
theorem recover (h : c.Orderly ts) {e : ParseError} (he : e.span.Anchored ts) :
    c.Onward ts (c.recover e) :=
  (h.report he).trans ((h.report he).orderly.skip _)

/-- Ends of lines are skipped onward. -/
theorem skipNewlines (h : c.Orderly ts) : c.Onward ts c.skipNewlines := h.skip _

/-- Comments are skipped onward. -/
theorem skipComments (h : c.Orderly ts) : c.Onward ts c.skipComments := h.skip _

/-- Ends of lines and comments are skipped onward. -/
theorem skipBlanks (h : c.Orderly ts) : c.Onward ts c.skipNewlines.skipComments :=
  h.skipNewlines.trans h.skipNewlines.orderly.skipComments

end Orderly

end Cursor

section

variable {α β : Type} {ts : List Token} {c : Cursor} {m : Nat} {P : Nat → α → Prop}
  {Q : Nat → β → Prop}

/-- Whether a step moves a cursor onward, and what it gives has a property of the offset where it
stops. -/
def SweepsAt (ts : List Token) (c : Cursor) (P : Nat → α → Prop) (step : StateM Cursor α) : Prop :=
  c.Onward ts (step c).2 ∧ P (step c).2.lastEnd.offset (step c).1

/-- Whether a step moves every cursor onward that stands at an offset, and what it gives has a
property of the offset where it stops. -/
def Sweeps (ts : List Token) (m : Nat) (P : Nat → α → Prop) (step : StateM Cursor α) : Prop :=
  ∀ c, c.Orderly ts → c.lastEnd.offset = m → SweepsAt ts c P step

/-- Whether a parser moves a cursor onward, and what it gives has a property of the offset where it
stops, unless it is an error among the tokens. -/
abbrev TracesAt (ts : List Token) (c : Cursor) (P : Nat → α → Prop) (p : Parser α) : Prop :=
  SweepsAt ts c (fun n r ↦ Conclusion ts (P n) r) p.run

/-- Whether a parser moves every cursor onward that stands at an offset, and what it gives has a
property of the offset where it stops, unless it is an error among the tokens. -/
abbrev Traces (ts : List Token) (m : Nat) (P : Nat → α → Prop) (p : Parser α) : Prop :=
  Sweeps ts m (fun n r ↦ Conclusion ts (P n) r) p.run

/-! ## Composition -/

/-- A step of which the first part is known. -/
theorem SweepsAt.bind {step : StateM Cursor α} {k : α → StateM Cursor β} {x : α} {d : Cursor}
    (run : step c = (x, d)) (onward : c.Onward ts d) (h : SweepsAt ts d Q (k x)) :
    SweepsAt ts c Q (step >>= k) := by
  rw [SweepsAt, state_bind run]
  exact ⟨onward.trans h.1, h.2⟩

/-- One step after another, from a cursor on. -/
theorem SweepsAt.next {step : StateM Cursor α} {k : α → StateM Cursor β} (h : SweepsAt ts c P step)
    (hk : ∀ n x, c.lastEnd.offset ≤ n → P n x → Sweeps ts n Q (k x)) :
    SweepsAt ts c Q (step >>= k) := by
  obtain ⟨onward, found⟩ := h
  exact .bind rfl onward (hk _ _ onward.grows found _ onward.orderly rfl)

/-- A step that starts at a known cursor. -/
theorem SweepsAt.of_sweeps {step : StateM Cursor α} (h : Sweeps ts m P step) (hc : c.Orderly ts)
    (hm : c.lastEnd.offset = m) : SweepsAt ts c P step := h c hc hm

namespace Sweeps

/-- A step that does nothing stops where it starts. -/
theorem pure {x : α} (h : P m x) : Sweeps ts m P (pure x) := by
  rintro c hc rfl
  exact ⟨hc.refl, h⟩

/-- One step after another: the second starts no further back than the first one stops. -/
theorem bind {step : StateM Cursor α} {k : α → StateM Cursor β} (h : Sweeps ts m P step)
    (hk : ∀ n x, m ≤ n → P n x → Sweeps ts n Q (k x)) : Sweeps ts m Q (step >>= k) := by
  rintro c hc rfl
  exact (h c hc rfl).next hk

private theorem imp {P' : Nat → α → Prop} {step : StateM Cursor α} (h : Sweeps ts m P step)
    (hP : ∀ n x, m ≤ n → P n x → P' n x) : Sweeps ts m P' step := by
  rintro c hc rfl
  obtain ⟨onward, found⟩ := h c hc rfl
  exact ⟨onward, hP _ _ onward.grows found⟩

/-- A step that moves the cursor onward. -/
theorem move {k : Unit → StateM Cursor β} {f : Cursor → Cursor}
    (hf : ∀ c : Cursor, c.Orderly ts → c.Onward ts (f c)) (hk : ∀ n, m ≤ n → Sweeps ts n Q (k ())) :
    Sweeps ts m Q (modify f >>= k) := by
  rintro c hc rfl
  obtain ⟨onward, found⟩ := hk _ (hf c hc).grows (f c) (hf c hc).orderly rfl
  exact ⟨(hf c hc).trans onward, found⟩

/-- The step that follows knows the cursor that it starts at. -/
theorem here {k : Cursor → StateM Cursor β}
    (h : ∀ c, c.Orderly ts → c.lastEnd.offset = m → SweepsAt ts c Q (k c)) :
    Sweeps ts m Q (get >>= k) := h

/-- A step may depend on where it starts. -/
theorem cursor {k : Cursor → StateM Cursor β} (h : ∀ c, Sweeps ts m Q (k c)) :
    Sweeps ts m Q (get >>= k) := fun c hc hm ↦ h c c hc hm

end Sweeps

/-- One parser after another, from a cursor on. -/
theorem TracesAt.bind {p : Parser α} {k : α → Parser β} (hp : TracesAt ts c P p)
    (hk : ∀ n x, c.lastEnd.offset ≤ n → P n x → Traces ts n Q (k x)) :
    TracesAt ts c Q (p >>= k) := by
  obtain ⟨onward, found⟩ := hp
  change SweepsAt ts c _ (p.run >>= ExceptT.bindCont k)
  refine SweepsAt.bind rfl onward ?_
  change Conclusion ts _ (p c).1 at found
  cases hr : (p c).1 with
  | ok x =>
    rw [hr] at found
    exact hk _ x onward.grows found _ onward.orderly rfl
  | error e =>
    rw [hr] at found
    exact ⟨onward.orderly.refl, found⟩

/-- A parser of which more is known where it starts. -/
theorem TracesAt.of_runs {p : Parser α} {Known : α → Prop} (h : TracesAt ts c P p)
    (known : ∀ x d, p c = (.ok x, d) → Known x) :
    TracesAt ts c (fun n x ↦ P n x ∧ Known x) p := by
  obtain ⟨onward, found⟩ := h
  refine ⟨onward, ?_⟩
  change Conclusion ts _ (p c).1 at found
  change Conclusion ts _ (p c).1
  cases hr : (p c).1 with
  | ok x =>
    rw [hr] at found
    exact ⟨found, known x _ (Prod.ext hr rfl)⟩
  | error e =>
    rw [hr] at found
    exact found

/-- A parser that starts at a known cursor. -/
theorem TracesAt.of_traces {p : Parser α} (h : Traces ts m P p) (hc : c.Orderly ts)
    (hm : c.lastEnd.offset = m) : TracesAt ts c P p := h c hc hm

/-- A parser may depend on the kind of the current token. -/
theorem TracesAt.peek {k : TokenKind → Parser β} (h : TracesAt ts c Q (k c.current.kind)) :
    TracesAt ts c Q (Parser.peek >>= k) := h

/-- A parser may depend on the kind of the next token. -/
theorem TracesAt.peekNext {k : TokenKind → Parser β} (h : TracesAt ts c Q (k c.next.kind)) :
    TracesAt ts c Q (Parser.peekNext >>= k) := h

namespace Traces

/-- A value that is there already stops where it starts. -/
theorem pure {x : α} (h : P m x) : Traces ts m P (pure x : Parser α) := by
  rintro c hc rfl
  exact ⟨hc.refl, h⟩

/-- An error at the token at the cursor. -/
theorem throwHere {fault : GrammarFault} :
    Traces ts m P (do throw ⟨fault, (← Parser.cursor).current.span⟩ : Parser α) :=
  fun _ hc _ ↦ ⟨hc.refl, hc.anchored_current⟩

/-- An error among the tokens. -/
theorem throw {e : ParseError} (he : e.span.Anchored ts) : Traces ts m P (throw e : Parser α) :=
  fun _ hc _ ↦ ⟨hc.refl, he⟩

/-- An error about the token ahead is one among the tokens. -/
theorem unexpected (expected : String) : Traces ts m P (Parser.unexpected expected : Parser α) :=
  fun _ hc _ ↦ ⟨hc.refl, hc.anchored_current⟩

/-- A block is missed behind a token. -/
theorem missingBlock (construct : Construct) (hm : 0 < m) :
    Traces ts m P (Parser.missingBlock construct : Parser α) := by
  rintro c hc rfl
  exact ⟨hc.refl, hc.ended hm, hc.ended hm, Nat.le_refl _⟩

/-- One parser after another: the second starts no further back than the first one stops. -/
theorem bind {p : Parser α} {k : α → Parser β} (hp : Traces ts m P p)
    (hk : ∀ n x, m ≤ n → P n x → Traces ts n Q (k x)) : Traces ts m Q (p >>= k) := by
  rintro c hc rfl
  exact TracesAt.bind (hp c hc rfl) hk

/-- A weaker property of what is given and of where it stops. -/
theorem imp {P' : Nat → α → Prop} {p : Parser α} (hp : Traces ts m P p)
    (h : ∀ n x, m ≤ n → P n x → P' n x) : Traces ts m P' p :=
  Sweeps.imp hp fun n _ hn found ↦ found.imp fun x ↦ h n x hn

/-- A parser whose value is changed stops at the same offset. -/
theorem map {p : Parser α} {f : α → β} (hp : Traces ts m P p)
    (hf : ∀ n x, m ≤ n → P n x → Q n (f x)) : Traces ts m Q (f <$> p) := by
  rw [map_eq_pure_bind]
  exact hp.bind fun n x hn hx ↦ .pure (hf n x hn hx)

/-- Looking at the token at the cursor takes none. -/
theorem peek {k : TokenKind → Parser β}
    (h : ∀ c, c.Orderly ts → c.lastEnd.offset = m → TracesAt ts c Q (k c.current.kind)) :
    Traces ts m Q (Parser.peek >>= k) := h

/-- A parser may depend on the kind of the next token. -/
theorem peekNext {k : TokenKind → Parser β} (h : ∀ kind, Traces ts m Q (k kind)) :
    Traces ts m Q (Parser.peekNext >>= k) := fun c hc hm ↦ h _ c hc hm

/-- A parser may depend on where it starts. -/
theorem cursor {k : Cursor → Parser β} (h : ∀ c, Traces ts m Q (k c)) :
    Traces ts m Q (Parser.cursor >>= k) := fun c hc hm ↦ h c c hc hm

/-- The parser that follows knows the cursor that it starts at. -/
theorem here {k : Cursor → Parser β}
    (h : ∀ c, c.Orderly ts → c.lastEnd.offset = m → TracesAt ts c Q (k c)) :
    Traces ts m Q (Parser.cursor >>= k) := h

/-- A look at the token ahead moves no cursor. -/
theorem at? {kind : TokenKind} {k : Bool → Parser β} (h : ∀ b, Traces ts m Q (k b)) :
    Traces ts m Q (Parser.at? kind >>= k) := fun c hc hm ↦ h _ c hc hm

/-- A parser that moves the cursor onward. -/
theorem move {f : Cursor → Cursor} {k : Unit → Parser β}
    (hf : ∀ c : Cursor, c.Orderly ts → c.Onward ts (f c)) (h : ∀ n, m ≤ n → Traces ts n Q (k ())) :
    Traces ts m Q (Parser.move f >>= k) := Sweeps.move hf h

/-- A span that is closed ends where the last token taken ends. -/
theorem close {first : Span} {f : Span → α}
    (h : ∀ stop : Position, stop.offset = m → (0 < stop.offset → stop.IsEdge ts) →
      P stop.offset (f ⟨first.start, stop⟩)) :
    Traces ts m P (do return f (← Parser.spanFrom first)) := by
  rintro c hc rfl
  exact ⟨hc.refl, h c.lastEnd rfl hc.ended⟩

/-- A value computed from what was read, with its errors among the tokens. -/
theorem lift {r : Except ParseError α} (h : Conclusion ts (P m) r) :
    Traces ts m P (liftM r : Parser α) := by
  rintro c hc rfl
  exact ⟨hc.refl, h⟩

/-- A step as a parser. -/
theorem of_sweeps {step : StateM Cursor α} (h : Sweeps ts m P step) :
    Traces ts m P (liftM step : Parser α) := by
  intro c hc hm
  obtain ⟨onward, found⟩ := h c hc hm
  exact ⟨onward, found⟩

/-- Taking the token at the cursor, which is known to be visible. -/
theorem take_at (hc : c.Orderly ts) (shows : c.current.kind.isLayout = false)
    {k : Token → Parser β}
    (h : ∀ n, c.current.span.Stands ts c.lastEnd.offset n → Traces ts n Q (k c.current)) :
    TracesAt ts c Q (Parser.take >>= k) := by
  obtain ⟨onward, found⟩ :=
    h _ (hc.stands_current shows) c.advance hc.advance.orderly rfl
  exact ⟨hc.advance.trans onward, found⟩

/-- A token is taken onward, whichever it is. -/
theorem take {k : Token → Parser β} (h : ∀ n t, m ≤ n → Traces ts n Q (k t)) :
    Traces ts m Q (Parser.take >>= k) := by
  rintro c hc rfl
  obtain ⟨onward, found⟩ := h _ c.current hc.advance.grows c.advance hc.advance.orderly rfl
  exact ⟨hc.advance.trans onward, found⟩

end Traces

/-! ## Tokens -/

/-- A token that may be there stands between where it is looked for and where parsing goes on. -/
theorem take?_traces (kind : TokenKind) (shows : kind.isLayout = false) :
    Traces ts m (fun n r ↦ ∀ t ∈ r, t.kind = kind ∧ t ∈ visible ts ∧ t.span.Stands ts m n)
      (Parser.take? kind) := by
  rintro c hc rfl
  change SweepsAt ts c _ (Parser.take? kind)
  rw [SweepsAt, Parser.take?_apply]
  split
  · next hk =>
    have visible : c.current.kind.isLayout = false := by rw [hk]; exact shows
    refine ⟨hc.advance, ?_⟩
    rintro t ⟨⟩
    exact ⟨hk, hc.current visible, hc.stands_current visible⟩
  · exact ⟨hc.refl, nofun⟩

/-- A token that has to be there stands between where it is looked for and where parsing goes on. -/
theorem expect_traces (kind : TokenKind) (shows : kind.isLayout = false) :
    Traces ts m (fun n t ↦ t.kind = kind ∧ t ∈ visible ts ∧ t.span.Stands ts m n)
      (Parser.expect kind) := by
  refine (take?_traces kind shows).bind fun n r _ hr ↦ ?_
  cases r with
  | none => exact .unexpected _
  | some t => exact .pure (hr t rfl)

/-- Layout may be taken as well. -/
theorem expect_onward (kind : TokenKind) :
    Traces ts m (fun _ _ ↦ True) (Parser.expect kind) := by
  refine Traces.bind (P := fun _ _ ↦ True) ?_ fun n r _ _ ↦ ?_
  · rintro c hc rfl
    change SweepsAt ts c _ (Parser.take? kind)
    rw [SweepsAt, Parser.take?_apply]
    split
    · exact ⟨hc.advance, trivial⟩
    · exact ⟨hc.refl, trivial⟩
  · cases r with
    | none => exact .unexpected _
    | some t => exact .pure trivial

/-- A token that stands for text, with which a construct without a word of its own may start. -/
theorem leads_of_taken {n : Nat} {kind : TokenKind} {t : Token}
    (h : t.kind = kind ∧ t ∈ visible ts ∧ t.span.Stands ts m n) (own : kind.isAside = false) :
    t.span.Leads ts m n none :=
  ⟨h.2.2, ⟨t, h.2.1, rfl, h.1 ▸ own⟩, nofun⟩

/-- A reserved word stands first between where it is looked for and where parsing goes on. -/
theorem keyword_traces (word : Keyword) :
    Traces ts m (fun n span ↦ span.Leads ts m n (some word)) (Parser.keyword word) := by
  refine (expect_traces (.keyword word) rfl).bind fun n t _ ht ↦ .pure ?_
  refine { leads_of_taken ht rfl with opens := ?_ }
  rintro _ ⟨⟩
  exact ⟨t, (mem_visible.1 ht.2.1).1, ht.1, rfl⟩

/-- A symbol takes some place. -/
theorem symbol_traces (mark : Punctuation) :
    Traces ts m (fun n _ ↦ m < n) (Parser.symbol mark) :=
  (expect_traces (.symbol mark) rfl).bind fun _ _ _ ht ↦ .pure ht.2.2.lt

/-- A symbol takes some place if it is there. -/
theorem symbol?_traces (mark : Punctuation) :
    Traces ts m (fun n taken ↦ taken = true → m < n) (Parser.symbol? mark) := by
  refine (take?_traces (.symbol mark) rfl).bind fun n r _ hr ↦ .pure fun taken ↦ ?_
  obtain ⟨t, rfl⟩ := Option.isSome_iff_exists.1 taken
  exact (hr t rfl).2.2.lt

/-- A look for a symbol moves no cursor. -/
theorem atSymbol_traces (mark : Punctuation) :
    Traces ts m (fun _ _ ↦ True) (Parser.atSymbol mark) :=
  fun _ hc _ ↦ ⟨hc.refl, trivial⟩

/-- A name fits in between where it is looked for and where parsing goes on. -/
theorem name_traces (role : String) :
    Traces ts m (fun n x ↦ x.outline.Fits ts m n) (Parser.name role) := by
  refine .peek fun c hc hm ↦ ?_
  split
  · next text hk =>
    refine Traces.take_at hc (by rw [hk]; rfl) fun n place ↦ .pure ?_
    exact Outline.fits_leaf.2 (hm ▸ place)
  · exact Traces.unexpected role c hc hm

/-- A string fits in, with the names in it. -/
theorem string_traces (role : String) :
    Traces ts m (fun n s ↦ s.outline.Fits ts m n) (Parser.string role) := by
  refine .peek fun c hc hm ↦ ?_
  split
  · next literal hk =>
    have visible : c.current.kind.isLayout = false := by rw [hk]; rfl
    have member := hc.mem_of_kind hk rfl
    refine Traces.take_at hc visible fun n place ↦ .pure ?_
    have names : Outline.Strung ts c.current.span.start.offset c.current.span.stop.offset
        ((StringLit.ofLiteral literal c.current.span).interpolations.map Located.outline) := by
      rw [StringLit.ofLiteral, List.map_map]
      refine ⟨List.forall_mem_map.2 fun hole hhole ↦ ?_, ?_⟩
      · exact Outline.fits_leaf.2 (hc.tokens.stands member hhole)
      · exact List.pairwise_map.2 (hc.tokens.ordered literal _ member)
    refine .node (hm ▸ place) (fun word h ↦ absurd h (Option.not_mem_none word))
      (fun _ ↦ ⟨c.current, hc.current visible, rfl, by rw [hk]; rfl⟩) ?_ .nil
    rw [List.append_nil]
    exact names.scattered
  · exact Traces.unexpected role c hc hm

/-- A condition in stars fits in. -/
theorem discretion_traces (role : String) :
    Traces ts m (fun n d ↦ d.outline.Fits ts m n) (Parser.discretion role) := by
  refine .peek fun c hc hm ↦ ?_
  split
  · next literal hk =>
    refine Traces.take_at hc (by rw [hk]; rfl) fun n place ↦ .pure ?_
    exact Outline.fits_leaf.2 (hm ▸ place)
  · exact Traces.unexpected role c hc hm

/-- A count stands where its digits do, and so does the error about digits that count nothing. -/
theorem countOf_concludes {digits : Located String} (h : digits.span.Anchored ts) :
    Conclusion ts (fun n ↦ n.span = digits.span) (Parser.countOf digits) := by
  unfold Parser.countOf
  split
  · exact rfl
  · exact h

/-- A number fits in. -/
theorem count_traces (role : String) :
    Traces ts m (fun n x ↦ x.outline.Fits ts m n) (Parser.count role) := by
  refine .peek fun c hc hm ↦ ?_
  split
  · next digits hk =>
    refine Traces.take_at hc (by rw [hk]; rfl) fun n place ↦ .lift ?_
    refine (countOf_concludes place.anchored).imp fun x same ↦ Outline.fits_leaf.2 ?_
    rw [same]
    exact hm ▸ place
  · exact Traces.unexpected role c hc hm

/-! ## Loops -/

/-- Whether a property of what is read between two offsets is one of stretches: it holds of nothing,
and of what is read before and after an offset in between if it holds of both. -/
structure Joins (R : Nat → Nat → List α → Prop) : Prop where
  nil : ∀ m n, R m n []
  append : ∀ {m k n xs ys}, m ≤ k → k ≤ n → R m k xs → R k n ys → R m n (xs ++ ys)

/-- Outlines in a row. -/
theorem Joins.strung (f : α → Outline) : Joins fun m n xs ↦ Outline.Strung ts m n (xs.map f) where
  nil _ _ := .nil
  append hm hn h h' := by
    rw [List.map_append]
    exact h.append h' hm hn

/-- Outlines in a row, of things that take up several. -/
theorem Joins.strungAll (f : α → List Outline) :
    Joins fun m n xs ↦ Outline.Strung ts m n (xs.flatMap f) where
  nil _ _ := .nil
  append hm hn h h' := by
    rw [List.flatMap_append]
    exact h.append h' hm hn

section Loops

variable {R : Nat → Nat → List α → Prop} (hR : Joins R)
include hR

/-- What the rounds of a loop read makes up one stretch. -/
theorem rounds_sweeps {round : StateM Cursor (List α × RoundEnd)}
    (h : ∀ m, Sweeps ts m (fun n r ↦ Delivered ts (R m n) (r.1, r.2.error?)) round) (m : Nat) :
    Sweeps ts m (fun n r ↦ Delivered ts (R m n) r) (rounds round) := by
  intro c hc hm
  rw [SweepsAt]
  fun_induction rounds round c generalizing m with
  | case1 c xs c' run | case2 c xs e c' run =>
    have found := h m c hc hm
    rwa [SweepsAt, run] at found
  | case3 c xs c' run shorter ys e c'' rest ih =>
    have found := h m c hc hm
    rw [SweepsAt, run] at found
    obtain ⟨onward, here⟩ := found
    have later := ih _ onward.orderly rfl
    rw [rest] at later
    obtain ⟨onward', there⟩ := later
    refine ⟨onward.trans onward', ?_, there.error⟩
    exact hR.append (hm ▸ onward.grows) onward'.grows here.read there.read
  | case4 c xs c' run =>
    have found := h m c hc hm
    rw [SweepsAt, run] at found
    exact found

private theorem many_traces {round : Parser (Option α × Bool)}
    (h : ∀ m, Traces ts m (fun n r ↦ R m n r.1.toList) round) (m : Nat) :
    Traces ts m (fun n xs ↦ R m n xs) (Parser.many round) := by
  have step (m : Nat) : Sweeps ts m (fun n r ↦ Delivered ts (R m n) (r.1, r.2.error?))
      (Parser.manyRound round) := by
    refine Sweeps.bind (h m) fun n r _ hr ↦ ?_
    rcases r with e | ⟨x, goOn⟩
    · exact .pure (.failed (hR.nil m n) hr)
    · refine .pure ?_
      cases goOn <;> exact .done hr
  intro c hc hm
  have gathered := rounds_sweeps hR step m c hc hm
  rw [SweepsAt] at gathered
  change SweepsAt ts c _ (Parser.many round)
  rw [SweepsAt, Parser.many_apply]
  generalize rounds (Parser.manyRound round) c = result at gathered
  obtain ⟨onward, found⟩ := gathered
  rcases result with ⟨⟨xs, e | e⟩, d⟩
  · exact ⟨onward, found.read⟩
  · exact ⟨onward, found.error e rfl⟩

/-- Items follow each other in order while a condition holds. -/
theorem manyWhile_traces {continues : Parser Bool} {item : Parser α}
    (hcontinues : ∀ m, Traces ts m (fun _ _ ↦ True) continues)
    (hitem : ∀ m, Traces ts m (fun n x ↦ R m n [x]) item) (m : Nat) :
    Traces ts m (fun n xs ↦ R m n xs) (Parser.manyWhile continues item) := by
  refine many_traces hR (fun m ↦ (hcontinues m).bind fun k b hk _ ↦ ?_) m
  cases b with
  | false => exact .pure (hR.nil m k)
  | true =>
    refine (hitem k).bind fun n x hn hx ↦ .pure ?_
    exact hR.append hk hn (hR.nil m k) hx

/-- Items between commas follow each other in order. -/
theorem commaList_traces (close : Punctuation) {item : Parser α}
    (hitem : ∀ m, Traces ts m (fun n x ↦ R m n [x]) item) (m : Nat) :
    Traces ts m (fun n xs ↦ R m n xs) (Parser.commaList close item) := by
  have round (m : Nat) : Traces ts m (fun n (r : Option α × Bool) ↦ R m n r.1.toList) (do
      if ← Parser.atSymbol close then return (none, false)
      let x ← item
      return (some x, ← Parser.symbol? .comma)) := by
    refine (atSymbol_traces close).bind fun k b hk _ ↦ ?_
    cases b with
    | true => exact .pure (hR.nil m k)
    | false =>
      refine (hitem k).bind fun n x hn hx ↦ ?_
      refine (symbol?_traces .comma).bind fun n' _ hn' _ ↦ .pure ?_
      exact hR.append hk (Nat.le_trans hn hn') (hR.nil m k)
        (hR.append hn hn' hx (hR.nil n n'))
  refine (many_traces hR round m).bind fun k xs _ hxs ↦ ?_
  refine (symbol_traces close).bind fun n _ hn _ ↦ .pure ?_
  have whole := hR.append ‹m ≤ k› hn hxs (hR.nil k n)
  rwa [List.append_nil] at whole

/-- Items in parentheses follow each other in order, if there are parentheses. -/
theorem parenthesized?_traces {item : Parser α}
    (hitem : ∀ m, Traces ts m (fun n x ↦ R m n [x]) item) (m : Nat) :
    Traces ts m (fun n xs ↦ R m n xs) (Parser.parenthesized? item) := by
  refine (symbol?_traces .leftParen).bind fun k b hk _ ↦ ?_
  cases b with
  | false => exact .pure (hR.nil m k)
  | true =>
    refine (commaList_traces hR .rightParen hitem k).imp fun n xs hn hxs ↦ ?_
    exact hR.append hk hn (hR.nil m k) hxs

end Loops

/-- What the rounds of a loop have read is kept when one fails. -/
theorem Traces.gather {step : StateM Cursor (List α × Option ParseError)}
    {R : Nat → List α → Prop} (h : Sweeps ts m (fun n r ↦ Delivered ts (R n) r) step) :
    Traces ts m R (fun c ↦
      let ((read, _), c') := step c
      (.ok read, c')) := by
  intro c hc hm
  obtain ⟨onward, found⟩ := h c hc hm
  exact ⟨onward, found.read⟩

/-- What a parser that recovers gives stands in order, if it gives something. -/
theorem recovering_sweeps {p : Parser α} (hp : Traces ts m P p) :
    Sweeps ts m (fun n r ↦ ∀ x ∈ r, P n x) (Parser.recovering p) := by
  refine Sweeps.bind hp fun n r _ hr ↦ ?_
  rcases r with e | x
  · exact .move (fun c hc ↦ hc.recover hr) fun _ _ ↦ .pure nofun
  · refine .pure ?_
    rintro _ ⟨⟩
    exact hr

/-- The end of a statement moves onward. -/
theorem endStatement_traces : Traces ts m (fun _ _ ↦ True) Parser.endStatement := by
  refine .cursor fun c ↦ ?_
  split
  · exact .pure trivial
  · exact .pure trivial
  · refine .peek fun c hc hm ↦ ?_
    split
    · exact Traces.take (fun _ _ _ ↦ .pure trivial) c hc hm
    · exact Traces.pure trivial c hc hm
    · exact Traces.pure trivial c hc hm
    · exact Traces.unexpected _ c hc hm

end

end ProseLang
