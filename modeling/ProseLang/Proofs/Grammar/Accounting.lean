import ProseLang.Proofs.Grammar.Progress
import ProseLang.Proofs.Grammar.Recovery

/-!
# What readers make of the tokens they take

`Takes clean ts P p` says of a parser `p` that, wherever it starts in the stream `ts`, whatever it
gives has the property `P` together with the tokens that it takes for it. With `clean`, all this is
said only where no error is recorded on the way: a reader that recovers from an error has nothing
more to show. `Accounts` is the same for the reserved words among the tokens that can start a
session or the definition of an agent, and `Idle` says that there are none.

This module has the judgements, the parsers of single tokens and the loops.
-/

namespace ProseLang

/-- Whether a token of a kind can start a session or the definition of an agent. -/
def TokenKind.isHost : TokenKind → Bool
  | keyword .session | keyword .agent => true
  | _ => false

/-- The tokens that can start a session or the definition of an agent. -/
def hosts (ts : List Token) : List Token := ts.filter (·.kind.isHost)

/-- The words in tokens one after the other. -/
@[simp] theorem hosts_append (ts us : List Token) : hosts (ts ++ us) = hosts ts ++ hosts us :=
  List.filter_append ..

/-- A token that starts neither a session nor an agent. -/
theorem hosts_singleton {t : Token} (h : t.kind.isHost = false) : hosts [t] = [] :=
  List.filter_eq_nil_iff.2 (List.forall_mem_singleton.2 (by rw [h]; nofun))

/-- Tokens none of which starts a session or an agent. -/
theorem hosts_eq_nil {ts : List Token} (h : ∀ t ∈ ts, t.kind.isHost = false) : hosts ts = [] :=
  List.filter_eq_nil_iff.2 fun t ht ↦ by rw [h t ht]; nofun

/-- What is taken in two parts is one part after the other. -/
theorem taken_eq_append {ts us vs taken first later : List Token} (h : ts = taken ++ vs)
    (hfirst : first ++ us = ts) (hlater : later ++ vs = us) : taken = first ++ later := by
  subst hlater hfirst
  rw [← List.append_assoc] at h
  exact (List.append_cancel_right h).symm

/-- Whether a cursor is in a stream, which has no invalid token if it is clean. -/
structure Cursor.On (clean : Prop) (ts : List Token) (c : Cursor) : Prop where
  final : c.final.kind = .endOfFile
  suffix : c.rest <:+ ts
  valid : clean → c.rejected = []

namespace Cursor

variable {clean : Prop} {ts : List Token} {c d : Cursor}

/-- A cursor that is moved on stays in its stream. -/
theorem On.passes (h : c.On clean ts) (p : c.Passes d) : d.On clean ts where
  final := by rw [p.final, h.final]
  suffix := p.suffix.trans h.suffix
  valid hclean := by rw [p.rejected, h.valid hclean]

/-- Before its end, a stream starts with the current token. -/
theorem rest_eq_cons (hfinal : c.final.kind = .endOfFile) (hk : c.current.kind ≠ .endOfFile) :
    c.rest = c.current :: c.advance.rest := by
  cases hc : c.rest with
  | nil =>
    rw [current, hc] at hk
    exact absurd hfinal hk
  | cons t rest => rw [rest_advance hc, current_of_cons hc]

/-- Where nothing is recorded later, nothing was recorded before. -/
theorem Passes.errors_nil (h : c.Passes d) (hd : clean → d.errors = []) :
    clean → c.errors = [] := by
  intro hclean
  have before := h.errors
  rw [hd hclean] at before
  exact List.prefix_nil.1 before

end Cursor

section

variable {α β : Type} {clean : Prop} {ts : List Token} {c d : Cursor}
  {P : List Token → α → Prop} {Q : List Token → β → Prop}

/-- Whether what a step comes to from a cursor is further on, and what it gives has a property
together with what it takes, unless an error is on record. -/
structure Taken (clean : Prop) (c : Cursor) (P : List Token → α → Prop) (r : α × Cursor) :
    Prop where
  passes : c.Passes r.2
  gives : (clean → r.2.errors = []) → ∀ taken, c.rest = taken ++ r.2.rest → P taken r.1

/-- Whether a step moves a cursor on, and what it gives there has a property together with what it
takes. -/
abbrev StepTakesAt (clean : Prop) (c : Cursor) (P : List Token → α → Prop) (m : StateM Cursor α) :
    Prop :=
  Taken clean c P (m c)

/-- Whether what a step gives has a property together with what it takes, wherever in a stream. -/
def StepTakes (clean : Prop) (ts : List Token) (P : List Token → α → Prop) (m : StateM Cursor α) :
    Prop :=
  ∀ c, c.On clean ts → StepTakesAt clean c P m

/-- Whether what a parser gives at a cursor has a property together with what it takes. -/
abbrev TakesAt (clean : Prop) (c : Cursor) (P : List Token → α → Prop) (p : Parser α) : Prop :=
  StepTakesAt clean c (fun taken r ↦ ∀ x, r = .ok x → P taken x) p.run

/-- Whether what a parser gives has a property together with what it takes, wherever in a stream. -/
abbrev Takes (clean : Prop) (ts : List Token) (P : List Token → α → Prop) (p : Parser α) : Prop :=
  StepTakes clean ts (fun taken r ↦ ∀ x, r = .ok x → P taken x) p.run

/-! ## Composition -/

/-- A weaker property of what a step gives and takes. -/
theorem StepTakesAt.imp {P' : List Token → α → Prop} {m : StateM Cursor α}
    (h : StepTakesAt clean c P m) (hP : ∀ taken x, P taken x → P' taken x) :
    StepTakesAt clean c P' m :=
  ⟨h.passes, fun record taken rest ↦ hP _ _ (h.gives record taken rest)⟩

/-- What is taken is what comes next in the stream. -/
theorem StepTakesAt.imp_rest {P' : List Token → α → Prop} {m : StateM Cursor α}
    (h : StepTakesAt clean c P m)
    (hP : ∀ taken x later, c.rest = taken ++ later → P taken x → P' taken x) :
    StepTakesAt clean c P' m :=
  ⟨h.passes, fun record taken rest ↦ hP taken _ _ rest (h.gives record taken rest)⟩

/-- A step that gives what is known, and takes known tokens. -/
theorem StepTakesAt.of_run {m : StateM Cursor α} {x : α} {u : List Token} (run : m c = (x, d))
    (passes : c.Passes d) (rest : c.rest = u ++ d.rest)
    (h : (clean → d.errors = []) → P u x) : StepTakesAt clean c P m where
  passes := by rwa [run]
  gives record taken' rest' := by
    rw [run] at record rest' ⊢
    rw [← List.append_cancel_right (rest.symm.trans rest')]
    exact h record

private theorem StepTakesAt.bind {m : StateM Cursor α} {k : α → StateM Cursor β}
    (hc : c.On clean ts) (hm : StepTakesAt clean c P m)
    (hk : ∀ x, StepTakes clean ts (fun later y ↦ ∀ taken, P taken x → Q (taken ++ later) y) (k x)) :
    StepTakesAt clean c Q (m >>= k) := by
  obtain ⟨passes, gives⟩ := hm
  obtain ⟨passes', gives'⟩ := hk (m c).1 (m c).2 (hc.passes passes)
  refine ⟨passes.trans passes', fun record taken rest ↦ ?_⟩
  obtain ⟨first, hfirst⟩ := passes.suffix
  obtain ⟨later, hlater⟩ := passes'.suffix
  rw [taken_eq_append rest hfirst hlater]
  exact gives' record later hlater.symm first (gives (passes'.errors_nil record) first hfirst.symm)

/-- A step of which the first part is known. -/
theorem StepTakesAt.bind_of_run {m : StateM Cursor α} {k : α → StateM Cursor β} {x : α}
    {u : List Token} (run : m c = (x, d)) (passes : c.Passes d) (rest : c.rest = u ++ d.rest)
    (h : StepTakesAt clean d (fun later y ↦ Q (u ++ later) y) (k x)) :
    StepTakesAt clean c Q (m >>= k) := by
  obtain ⟨passes', gives⟩ := h
  rw [StepTakesAt, state_bind run]
  refine ⟨passes.trans passes', fun record all hall ↦ ?_⟩
  obtain ⟨later, hlater⟩ := passes'.suffix
  rw [taken_eq_append hall rest.symm hlater]
  exact gives record later hlater.symm

namespace StepTakes

private theorem imp {P' : List Token → α → Prop} {m : StateM Cursor α} (h : StepTakes clean ts P m)
    (hP : ∀ taken x, P taken x → P' taken x) : StepTakes clean ts P' m :=
  fun c hc ↦ (h c hc).imp hP

/-- A step that does nothing takes nothing. -/
theorem pure {x : α} (h : P [] x) : StepTakes clean ts P (pure x) :=
  fun c _ ↦ .of_run rfl (.refl c) rfl fun _ ↦ h

/-- Steps one after the other take their tokens one after the other. -/
theorem bind {m : StateM Cursor α} {k : α → StateM Cursor β} (hm : StepTakes clean ts P m)
    (hk : ∀ x, StepTakes clean ts (fun later y ↦ ∀ taken, P taken x → Q (taken ++ later) y) (k x)) :
    StepTakes clean ts Q (m >>= k) := fun c hc ↦ (hm c hc).bind hc hk

/-- A step may depend on where it starts. -/
theorem cursor {k : Cursor → StateM Cursor β}
    (h : ∀ c, c.On clean ts → StepTakesAt clean c Q (k c)) : StepTakes clean ts Q (get >>= k) := h

/-- Going on behind tokens that do not matter. -/
theorem skip {f : Cursor → Cursor} {k : Unit → StateM Cursor β} (hf : ∀ c : Cursor, c.Passes (f c))
    (h : StepTakes clean ts
      (fun later y ↦ ∀ c taken, c.rest = taken ++ (f c).rest → Q (taken ++ later) y) (k ())) :
    StepTakes clean ts Q (modify f >>= k) := by
  intro c hc
  obtain ⟨skipped, rest⟩ := (hf c).suffix
  refine .bind_of_run (u := skipped) (d := f c) rfl (hf c) rest.symm ?_
  exact (h (f c) (hc.passes (hf c))).imp fun later y given ↦ given c skipped rest.symm

end StepTakes

/-- After an error on the record, there is nothing to show. -/
theorem StepTakesAt.recover {e : ParseError} {x : α} (hc : c.On clean ts)
    (h : ¬ clean → ∀ taken, P taken x) :
    StepTakesAt clean c P (do modify (·.recover e); return x) where
  passes := .recover c e
  gives record taken _ := by
    refine h (fun hclean ↦ ?_) taken
    exact errors_recover_ne_nil (hc.valid hclean) e (record hclean)

/-- What a parser takes at a cursor comes before what the rest takes. -/
theorem TakesAt.bind {p : Parser α} {k : α → Parser β} (hc : c.On clean ts)
    (hp : TakesAt clean c P p)
    (hk : ∀ x, Takes clean ts (fun later y ↦ ∀ taken, P taken x → Q (taken ++ later) y) (k x)) :
    TakesAt clean c Q (p >>= k) := by
  change StepTakesAt clean c _ (p.run >>= ExceptT.bindCont k)
  refine StepTakesAt.bind hc hp fun r ↦ ?_
  cases r with
  | ok x =>
    refine StepTakes.imp (hk x) fun later r h taken known y hy ↦ ?_
    exact h y hy taken (known x rfl)
  | error e => exact .pure fun _ _ _ ↦ nofun

/-- A weaker property of what a parser gives and takes, which are the tokens ahead. -/
theorem TakesAt.imp_rest {P' : List Token → α → Prop} {p : Parser α} (h : TakesAt clean c P p)
    (hP : ∀ taken x later, c.rest = taken ++ later → P taken x → P' taken x) :
    TakesAt clean c P' p :=
  StepTakesAt.imp_rest h fun taken _ later rest known x hx ↦ hP taken x later rest (known x hx)

/-- A parser that fails has nothing to show. -/
theorem TakesAt.of_error {p : Parser α} {e : ParseError} (run : p c = (.error e, d))
    (passes : c.Passes d) : TakesAt clean c P p := by
  obtain ⟨taken, rest⟩ := passes.suffix
  exact StepTakesAt.of_run (m := p.run) run passes rest.symm fun _ _ ↦ nofun

/-- A parser of which the first part is known. -/
theorem TakesAt.bind_of_run {p : Parser α} {k : α → Parser β} {x : α} {u : List Token}
    (run : p c = (.ok x, d)) (passes : c.Passes d) (rest : c.rest = u ++ d.rest)
    (h : TakesAt clean d (fun later y ↦ Q (u ++ later) y) (k x)) :
    TakesAt clean c Q (p >>= k) :=
  StepTakesAt.bind_of_run (m := p.run) (k := ExceptT.bindCont k) run passes rest h

namespace Takes

/-- A value that is there already takes nothing. -/
theorem pure {x : α} (h : P [] x) : Takes clean ts P (pure x) :=
  StepTakes.pure fun _ eq ↦ (Except.ok.inj eq) ▸ h

/-- An error gives nothing, so there is nothing to show of it. -/
theorem throw (e : ParseError) : Takes clean ts P (throw e : Parser α) :=
  StepTakes.pure fun _ ↦ nofun

/-- An error about the token ahead gives nothing. -/
theorem unexpected (expected : String) : Takes clean ts P (Parser.unexpected expected : Parser α) :=
  fun c _ ↦ .of_run rfl (.refl c) (u := []) rfl fun _ _ ↦ nofun

/-- An error about a missing block gives nothing. -/
theorem missingBlock (construct : Construct) :
    Takes clean ts P (Parser.missingBlock construct : Parser α) :=
  fun c _ ↦ .of_run rfl (.refl c) (u := []) rfl fun _ _ ↦ nofun

/-- A weaker property of what a parser gives and takes. -/
theorem imp {P' : List Token → α → Prop} {p : Parser α} (h : Takes clean ts P p)
    (hP : ∀ taken x, P taken x → P' taken x) : Takes clean ts P' p :=
  StepTakes.imp h fun taken _ known x hx ↦ hP taken x (known x hx)

/-- Parsers one after the other take their tokens one after the other. -/
theorem bind {p : Parser α} {k : α → Parser β} (hp : Takes clean ts P p)
    (hk : ∀ x, Takes clean ts (fun later y ↦ ∀ taken, P taken x → Q (taken ++ later) y) (k x)) :
    Takes clean ts Q (p >>= k) := fun c hc ↦ TakesAt.bind hc (hp c hc) hk

private theorem map {p : Parser α} {f : α → β} (hp : Takes clean ts P p)
    (hf : ∀ taken x, P taken x → Q taken (f x)) : Takes clean ts Q (f <$> p) := by
  rw [map_eq_pure_bind]
  exact hp.bind fun x ↦ .pure fun taken h ↦ by rw [List.append_nil]; exact hf taken x h

/-- Looking at the token at the cursor takes none. -/
theorem peek {k : TokenKind → Parser β}
    (h : ∀ c, c.On clean ts → TakesAt clean c Q (k c.current.kind)) :
    Takes clean ts Q (Parser.peek >>= k) := h

/-- A parser may depend on where it starts. -/
theorem cursor {k : Cursor → Parser β} (h : ∀ c, c.On clean ts → TakesAt clean c Q (k c)) :
    Takes clean ts Q (Parser.cursor >>= k) := h

/-- The span of what was read takes nothing, whatever it is. -/
theorem spanFrom {first : Span} {k : Span → Parser β} (h : ∀ span, Takes clean ts Q (k span)) :
    Takes clean ts Q (Parser.spanFrom first >>= k) := fun c hc ↦ h _ c hc

private theorem lift {r : Except ParseError α} (h : ∀ x, r = .ok x → P [] x) :
    Takes clean ts P (liftM r : Parser α) :=
  fun c _ ↦ .of_run rfl (.refl c) rfl fun _ x hx ↦ h x hx

/-- A step as a parser. -/
theorem of_step {m : StateM Cursor α} (h : StepTakes clean ts P m) :
    Takes clean ts P (liftM m) := by
  intro c hc
  obtain ⟨passes, gives⟩ := h c hc
  exact ⟨passes, fun record taken rest x hx ↦ (Except.ok.inj hx) ▸ gives record taken rest⟩

end Takes

/-- Looking at the token after that takes none either. -/
theorem TakesAt.peekNext {k : TokenKind → Parser β} (h : TakesAt clean c Q (k c.next.kind)) :
    TakesAt clean c Q (Parser.peekNext >>= k) := h

/-- Taking the token at the cursor, which is not the end of the file. -/
theorem TakesAt.take (hc : c.On clean ts) (hk : c.current.kind ≠ .endOfFile) {k : Token → Parser β}
    (h : TakesAt clean c.advance (fun later y ↦ Q (c.current :: later) y) (k c.current)) :
    TakesAt clean c Q (Parser.take >>= k) :=
  TakesAt.bind_of_run (u := [c.current]) rfl (.advance c) (c.rest_eq_cons hc.final hk) h

/-! ## Words that can start something -/

/-- Whether what a parser gives at a cursor has a property together with the words among what it
takes that can start a session or the definition of an agent. -/
def AccountsAt (clean : Prop) (c : Cursor) (P : List Token → α → Prop) (p : Parser α) : Prop :=
  TakesAt clean c (fun taken x ↦ P (hosts taken) x) p

/-- Whether what a parser gives has a property together with such words, wherever in a stream. -/
def Accounts (clean : Prop) (ts : List Token) (P : List Token → α → Prop) (p : Parser α) : Prop :=
  ∀ c, c.On clean ts → AccountsAt clean c P p

/-- Whether what a step gives at a cursor has a property together with such words. -/
def StepAccountsAt (clean : Prop) (c : Cursor) (P : List Token → α → Prop) (m : StateM Cursor α) :
    Prop :=
  StepTakesAt clean c (fun taken x ↦ P (hosts taken) x) m

/-- Whether what a step gives has a property together with such words, wherever in a stream. -/
def StepAccounts (clean : Prop) (ts : List Token) (P : List Token → α → Prop)
    (m : StateM Cursor α) : Prop :=
  ∀ c, c.On clean ts → StepAccountsAt clean c P m

/-- Whether a parser takes no such word. -/
abbrev Idle (clean : Prop) (ts : List Token) (p : Parser α) : Prop :=
  Accounts clean ts (fun words _ ↦ words = []) p

/-- Whether a parser takes no such word at a cursor. -/
abbrev IdleAt (clean : Prop) (c : Cursor) (p : Parser α) : Prop :=
  AccountsAt clean c (fun words _ ↦ words = []) p

namespace AccountsAt

/-- What holds wherever in a stream holds at a cursor in it. -/
theorem of {p : Parser α} (hc : c.On clean ts) (h : Accounts clean ts P p) :
    AccountsAt clean c P p :=
  h c hc

/-- A parser that fails accounts for everything, as its error is on record. -/
theorem of_error {p : Parser α} {e : ParseError} (run : p c = (.error e, d)) (passes : c.Passes d) :
    AccountsAt clean c P p := TakesAt.of_error run passes

/-- Parsers one after the other, from a cursor on. -/
theorem bind {p : Parser α} {k : α → Parser β} (hc : c.On clean ts) (hp : AccountsAt clean c P p)
    (hk : ∀ x, Accounts clean ts (fun later y ↦ ∀ words, P words x → Q (words ++ later) y) (k x)) :
    AccountsAt clean c Q (p >>= k) :=
  TakesAt.bind hc hp fun x ↦ Takes.imp (hk x) fun later y h taken known ↦ by
    rw [hosts_append]
    exact h (hosts taken) known

/-- A parser may depend on the token after the current one. -/
theorem peekNext {k : TokenKind → Parser β} (h : AccountsAt clean c Q (k c.next.kind)) :
    AccountsAt clean c Q (Parser.peekNext >>= k) := TakesAt.peekNext h

end AccountsAt

namespace Accounts

/-- A weaker property of what a parser gives and the words in it. -/
theorem imp {P' : List Token → α → Prop} {p : Parser α} (h : Accounts clean ts P p)
    (hP : ∀ words x, P words x → P' words x) : Accounts clean ts P' p :=
  Takes.imp h fun taken ↦ hP (hosts taken)

/-- A value that is there already has no word in it. -/
theorem pure {x : α} (h : P [] x) : Accounts clean ts P (pure x) := Takes.pure h

/-- An error accounts for everything. -/
theorem throw (e : ParseError) : Accounts clean ts P (throw e : Parser α) := Takes.throw e

/-- An error about the token ahead accounts for everything. -/
theorem unexpected (expected : String) : Accounts clean ts P
    (Parser.unexpected expected : Parser α) :=
  Takes.unexpected expected

/-- An error about a missing block accounts for everything. -/
theorem missingBlock (construct : Construct) :
    Accounts clean ts P (Parser.missingBlock construct : Parser α) := Takes.missingBlock construct

/-- Parsers one after the other find their words one after the other. -/
theorem bind {p : Parser α} {k : α → Parser β} (hp : Accounts clean ts P p)
    (hk : ∀ x, Accounts clean ts (fun later y ↦ ∀ words, P words x → Q (words ++ later) y) (k x)) :
    Accounts clean ts Q (p >>= k) := fun c hc ↦ AccountsAt.bind hc (hp c hc) hk

/-- A part that takes none of these words. -/
theorem skip {p : Parser α} {k : α → Parser β} (hp : Idle clean ts p)
    (hk : ∀ x, Accounts clean ts Q (k x)) : Accounts clean ts Q (p >>= k) :=
  bind hp fun x ↦ (hk x).imp fun later y h words none ↦ by rwa [none, List.nil_append]

/-- A parser whose value is changed takes the same words. -/
theorem map {p : Parser α} {f : α → β} (hp : Accounts clean ts P p)
    (hf : ∀ words x, P words x → Q words (f x)) : Accounts clean ts Q (f <$> p) :=
  Takes.map hp fun taken ↦ hf (hosts taken)

/-- What is read last. -/
theorem last {p : Parser α} {f : α → β} (hp : Accounts clean ts P p)
    (hf : ∀ words x, P words x → Q words (f x)) : Accounts clean ts Q (do return f (← p)) :=
  bind hp fun x ↦ .pure fun words h ↦ by
    rw [List.append_nil]
    exact hf words x h

/-- Looking at the token at the cursor takes none. -/
theorem peek {k : TokenKind → Parser β}
    (h : ∀ c, c.On clean ts → AccountsAt clean c Q (k c.current.kind)) :
    Accounts clean ts Q (Parser.peek >>= k) := h

/-- A parser may depend on where it starts. -/
theorem cursor {k : Cursor → Parser β} (h : ∀ c, c.On clean ts → AccountsAt clean c Q (k c)) :
    Accounts clean ts Q (Parser.cursor >>= k) := h

/-- A look at the token ahead takes no word. -/
theorem at? {kind : TokenKind} {k : Bool → Parser β} (h : ∀ b, Accounts clean ts Q (k b)) :
    Accounts clean ts Q (Parser.at? kind >>= k) := fun c hc ↦ h _ c hc

/-- The span of what was read takes no word. -/
theorem spanFrom {first : Span} {k : Span → Parser β} (h : ∀ span, Accounts clean ts Q (k span)) :
    Accounts clean ts Q (Parser.spanFrom first >>= k) := fun c hc ↦ h _ c hc

/-- What ends with the part that is read last. -/
theorem close {p : Parser α} {first : Span} {f : α → Span → β} (hp : Accounts clean ts P p)
    (hf : ∀ words x span, P words x → Q words (f x span)) :
    Accounts clean ts Q (do
      let x ← p
      return f x (← Parser.spanFrom first)) :=
  hp.bind fun x ↦ .spanFrom fun span ↦ .pure fun words h ↦ by
    rw [List.append_nil]
    exact hf words x span h

/-- A value computed from what was read has no word in it. -/
theorem lift {r : Except ParseError α} (h : ∀ x, r = .ok x → P [] x) :
    Accounts clean ts P (liftM r : Parser α) := Takes.lift h

end Accounts

namespace StepAccountsAt

/-- What holds wherever in a stream holds at a cursor in it. -/
theorem of {m : StateM Cursor α} (hc : c.On clean ts) (h : StepAccounts clean ts P m) :
    StepAccountsAt clean c P m := h c hc

/-- A parser as a step that may fail. -/
theorem run {p : Parser α} (h : AccountsAt clean c P p) :
    StepAccountsAt clean c (fun words r ↦ ∀ x, r = .ok x → P words x) p.run := h

/-- Steps one after the other, from a cursor on. -/
theorem bind {m : StateM Cursor α} {k : α → StateM Cursor β} (hc : c.On clean ts)
    (hm : StepAccountsAt clean c P m)
    (hk : ∀ x, StepAccounts clean ts (fun later y ↦ ∀ words, P words x → Q (words ++ later) y)
      (k x)) :
    StepAccountsAt clean c Q (m >>= k) :=
  StepTakesAt.bind hc hm fun x ↦ StepTakes.imp (hk x) fun later y h taken known ↦ by
    rw [hosts_append]
    exact h (hosts taken) known

end StepAccountsAt

namespace StepAccounts

/-- A step that does nothing takes no word. -/
theorem pure {x : α} (h : P [] x) : StepAccounts clean ts P (pure x) := StepTakes.pure h

private theorem imp {P' : List Token → α → Prop} {m : StateM Cursor α}
    (h : StepAccounts clean ts P m)
    (hP : ∀ words x, P words x → P' words x) : StepAccounts clean ts P' m :=
  StepTakes.imp h fun taken ↦ hP (hosts taken)

/-- Steps one after the other find their words one after the other. -/
theorem bind {m : StateM Cursor α} {k : α → StateM Cursor β} (hm : StepAccounts clean ts P m)
    (hk : ∀ x, StepAccounts clean ts (fun later y ↦ ∀ words, P words x → Q (words ++ later) y)
      (k x)) :
    StepAccounts clean ts Q (m >>= k) := fun c hc ↦ StepAccountsAt.bind hc (hm c hc) hk

/-- A parser as a step that may fail. -/
theorem run {p : Parser α} (h : Accounts clean ts P p) :
    StepAccounts clean ts (fun words r ↦ ∀ x, r = .ok x → P words x) p.run :=
  fun c hc ↦ StepAccountsAt.run (h c hc)

/-- A step may depend on where it starts. -/
theorem cursor {k : Cursor → StateM Cursor β}
    (h : ∀ c, c.On clean ts → StepAccountsAt clean c Q (k c)) :
    StepAccounts clean ts Q (get >>= k) := h

/-- Going on behind tokens that start nothing. -/
theorem skip {f : Cursor → Cursor} {k : Unit → StateM Cursor β} (hf : ∀ c : Cursor, c.Passes (f c))
    (idle : ∀ {c : Cursor} {taken}, c.rest = taken ++ (f c).rest → hosts taken = [])
    (h : StepAccounts clean ts Q (k ())) : StepAccounts clean ts Q (modify f >>= k) :=
  StepTakes.skip hf (StepTakes.imp h fun later y given c taken rest ↦ by
    rw [hosts_append, idle rest, List.nil_append]
    exact given)

end StepAccounts

namespace Idle

/-- A value that is there already takes no word. -/
theorem pure (x : α) : Idle clean ts (pure x) := Accounts.pure rfl

/-- Parsers that take no word, one after the other. -/
theorem bind {p : Parser α} {k : α → Parser β} (hp : Idle clean ts p)
    (hk : ∀ x, Idle clean ts (k x)) : Idle clean ts (p >>= k) := Accounts.skip hp hk

/-- A parser whose value is changed still takes no word. -/
theorem map {p : Parser α} {f : α → β} (hp : Idle clean ts p) : Idle clean ts (f <$> p) :=
  Accounts.map hp fun _ _ h ↦ h

private theorem of_takes {p : Parser α} (h : Takes clean ts (fun taken _ ↦ hosts taken = []) p) :
    Idle clean ts p := h

end Idle

/-! ## Tokens -/

private theorem take?_takes (kind : TokenKind) (hkind : kind ≠ .endOfFile) :
    Takes clean ts (fun taken r ↦ taken = r.toList ∧ ∀ t ∈ r, t.kind = kind)
    (Parser.take? kind) := by
  intro c hc
  by_cases hk : c.current.kind = kind
  · refine .of_run (u := [c.current]) (x := .ok (some c.current)) (d := c.advance) ?_ (.advance c)
      (c.rest_eq_cons hc.final (hk ▸ hkind)) fun _ r hr ↦ ?_
    · exact (Parser.take?_apply kind c).trans (if_pos hk)
    · cases hr
      exact ⟨rfl, fun t ht ↦ Option.some.inj ht ▸ hk⟩
  · refine .of_run (u := []) (x := .ok none) (d := c) ?_ (.refl c) rfl fun _ r hr ↦ ?_
    · exact (Parser.take?_apply kind c).trans (if_neg hk)
    · cases hr
      exact ⟨rfl, nofun⟩

/-- A token that is asked for is what is taken. -/
theorem expect_takes (kind : TokenKind) (hkind : kind ≠ .endOfFile) :
    Takes clean ts (fun taken t ↦ taken = [t] ∧ t.kind = kind) (Parser.expect kind) := by
  refine (take?_takes kind hkind).bind fun r ↦ ?_
  cases r with
  | none => exact .unexpected _
  | some t =>
    refine .pure ?_
    rintro _ ⟨rfl, h⟩
    exact ⟨rfl, h t rfl⟩

/-- A reserved word is what is taken. -/
theorem keyword_takes (word : Keyword) :
    Takes clean ts (fun taken span ↦ taken = [⟨.keyword word, span⟩]) (Parser.keyword word) := by
  refine (expect_takes (.keyword word) nofun).bind fun t ↦ .pure ?_
  rintro _ ⟨rfl, h⟩
  rw [← h]
  rfl

/-- A symbol is what is taken. -/
theorem symbol_takes (mark : Punctuation) :
    Takes clean ts (fun taken _ ↦ ∃ span, taken = [⟨.symbol mark, span⟩]) (Parser.symbol mark) := by
  refine (expect_takes (.symbol mark) nofun).bind fun t ↦ .pure ?_
  rintro _ ⟨rfl, h⟩
  exact ⟨t.span, by rw [← h]; rfl⟩

/-- A token that may be there takes no word, unless it is one. -/
theorem take?_idle (kind : TokenKind) (hkind : kind ≠ .endOfFile) (idle : kind.isHost = false) :
    Idle clean ts (Parser.take? kind) := by
  refine .of_takes ((take?_takes kind hkind).imp ?_)
  rintro _ r ⟨rfl, h⟩
  exact hosts_eq_nil fun t ht ↦ by rw [h t (Option.mem_toList.1 ht), idle]

/-- A token that has to be there takes no word, unless it is one. -/
theorem expect_idle (kind : TokenKind) (hkind : kind ≠ .endOfFile) (idle : kind.isHost = false) :
    Idle clean ts (Parser.expect kind) := by
  refine .of_takes ((expect_takes kind hkind).imp ?_)
  rintro _ t ⟨rfl, h⟩
  exact hosts_singleton (by rw [h, idle])

/-- A reserved word that starts neither a session nor an agent. -/
theorem keyword_idle (word : Keyword) (idle : (TokenKind.keyword word).isHost = false) :
    Idle clean ts (Parser.keyword word) :=
  .of_takes ((keyword_takes word).imp fun _ _ h ↦ by rw [h]; exact hosts_singleton idle)

/-- No symbol is such a word. -/
theorem symbol_idle (mark : Punctuation) : Idle clean ts (Parser.symbol mark) :=
  .of_takes ((symbol_takes mark).imp fun _ _ ⟨_, h⟩ ↦ by rw [h]; exact hosts_singleton rfl)

/-- No symbol that may be there is such a word. -/
theorem symbol?_idle (mark : Punctuation) : Idle clean ts (Parser.symbol? mark) :=
  (take?_idle (.symbol mark) nofun rfl).bind fun _ ↦ .pure _

/-- A look for a symbol takes no word. -/
theorem atSymbol_idle (mark : Punctuation) : Idle clean ts (Parser.atSymbol mark) :=
  .at? fun _ ↦ Idle.pure _

/-- Taking a token that starts nothing, with more to say of the next one. -/
theorem AccountsAt.take_at (hc : c.On clean ts) {kind : TokenKind} (hk : c.current.kind = kind)
    (hkind : kind ≠ .endOfFile) (idle : kind.isHost = false) {k : Token → Parser β}
    (h : AccountsAt clean c.advance Q (k c.current)) :
    AccountsAt clean c Q (Parser.take >>= k) := by
  refine TakesAt.take hc (hk ▸ hkind) (StepTakesAt.imp h fun later r given x hx ↦ ?_)
  change Q (hosts ([c.current] ++ later)) x
  rw [hosts_append, hosts_singleton (hk ▸ idle)]
  exact given x hx

/-- Taking a token that starts nothing. -/
theorem AccountsAt.take (hc : c.On clean ts) {kind : TokenKind} (hk : c.current.kind = kind)
    (hkind : kind ≠ .endOfFile) (idle : kind.isHost = false) {k : Token → Parser β}
    (h : Accounts clean ts Q (k c.current)) : AccountsAt clean c Q (Parser.take >>= k) :=
  take_at hc hk hkind idle (h _ (hc.passes (.advance c)))

/-- Going on behind tokens that start nothing. -/
theorem AccountsAt.move {f : Cursor → Cursor} (hf : c.Passes (f c))
    (idle : ∀ {taken}, c.rest = taken ++ (f c).rest → hosts taken = []) {k : Unit → Parser β}
    (h : AccountsAt clean (f c) Q (k ())) : AccountsAt clean c Q (Parser.move f >>= k) := by
  obtain ⟨skipped, rest⟩ := hf.suffix
  refine TakesAt.bind_of_run (x := ()) (d := f c) rfl hf rest.symm ?_
  refine StepTakesAt.imp h fun later r given x hx ↦ ?_
  change Q (hosts (skipped ++ later)) x
  rw [hosts_append, idle rest.symm]
  exact given x hx

/-- No name is such a word. -/
theorem name_idle (role : String) : Idle clean ts (Parser.name role) := by
  refine .peek fun c hc ↦ ?_
  split
  · next hk => exact .take hc hk nofun rfl (.pure rfl)
  · exact .of hc (.unexpected role)

/-- No string is such a word. -/
theorem string_idle (role : String) : Idle clean ts (Parser.string role) := by
  refine .peek fun c hc ↦ ?_
  split
  · next hk => exact .take hc hk nofun rfl (.pure rfl)
  · exact .of hc (.unexpected role)

/-- No condition in stars is such a word. -/
theorem discretion_idle (role : String) : Idle clean ts (Parser.discretion role) := by
  refine .peek fun c hc ↦ ?_
  split
  · next hk => exact .take hc hk nofun rfl (.pure rfl)
  · exact .of hc (.unexpected role)

/-- No number is such a word. -/
theorem count_idle (role : String) : Idle clean ts (Parser.count role) := by
  refine .peek fun c hc ↦ ?_
  split
  · next hk => exact .take hc hk nofun rfl (.lift fun _ _ ↦ rfl)
  · exact .of hc (.unexpected role)

/-- Tokens that are passed over are of the kind that is passed over. -/
theorem Cursor.forall_mem_of_skip {p : Token → Bool} {taken : List Token}
    (h : c.rest = taken ++ (c.skip (c.rest.takeWhile p).length).rest) :
    ∀ t ∈ taken, p t = true := by
  have parts : c.rest.takeWhile p ++ c.rest.drop (c.rest.takeWhile p).length = c.rest :=
    List.prefix_iff_eq_append.1 (List.takeWhile_prefix p)
  rw [rest_skip] at h
  rw [← List.append_cancel_right (parts.trans h)]
  exact List.all_eq_true.1 List.all_takeWhile

/-- What is passed over between statements and clauses starts nothing. -/
theorem Cursor.hosts_of_skipNewlines {taken : List Token}
    (h : c.rest = taken ++ c.skipNewlines.rest) : hosts taken = [] :=
  hosts_eq_nil fun t ht ↦ by
    have newline : t.kind = .newline := of_decide_eq_true (Cursor.forall_mem_of_skip h t ht)
    rw [newline]
    rfl

/-- There are no words among comments. -/
theorem Cursor.hosts_of_skipComments {taken : List Token}
    (h : c.rest = taken ++ c.skipComments.rest) : hosts taken = [] :=
  hosts_eq_nil fun t ht ↦ by
    have comment := Cursor.forall_mem_of_skip h t ht
    generalize t.kind = kind at comment
    cases kind <;> first | rfl | cases comment

/-- There are no words among ends of lines and comments. -/
theorem Cursor.hosts_of_skipBlanks {taken : List Token}
    (h : c.rest = taken ++ c.skipNewlines.skipComments.rest) : hosts taken = [] := by
  obtain ⟨lines, hlines⟩ := (Cursor.Passes.skip c _ : c.Passes c.skipNewlines).suffix
  obtain ⟨comments, hcomments⟩ :=
    (Cursor.Passes.skip c.skipNewlines _ : c.skipNewlines.Passes c.skipNewlines.skipComments).suffix
  rw [taken_eq_append h hlines hcomments, hosts_append, Cursor.hosts_of_skipNewlines hlines.symm,
    Cursor.hosts_of_skipComments hcomments.symm, List.append_nil]

/-- A statement ends with the end of its line at most. -/
theorem endStatement_takes :
    Takes clean ts (fun taken _ ↦ ∀ t ∈ taken, t.kind = .newline) Parser.endStatement := by
  refine .cursor fun c hc ↦ ?_
  split
  · exact Takes.pure nofun c hc
  · exact Takes.pure nofun c hc
  · refine Takes.peek (fun c hc ↦ ?_) c hc
    split
    · next hk =>
      refine TakesAt.take hc (by rw [hk]; nofun) ?_
      refine Takes.pure (fun t ht ↦ ?_) _ (hc.passes (.advance c))
      rw [List.mem_singleton.1 ht, hk]
    · exact Takes.pure nofun c hc
    · exact Takes.pure nofun c hc
    · exact Takes.unexpected _ c hc

/-! ## Loops -/

/-- What rounds show one after the other their loop shows. -/
theorem rounds_takes {round : StateM Cursor (List α × RoundEnd)}
    {P : Option ParseError → List Token → List α → Prop}
    (append : ∀ {e taken later xs ys}, P none taken xs → P e later ys →
      P e (taken ++ later) (xs ++ ys))
    (h : StepTakes clean ts (fun taken r ↦ P r.2.error? taken r.1) round) :
    StepTakes clean ts (fun taken r ↦ P r.2 taken r.1) (rounds round) := by
  intro c hc
  rw [StepTakesAt]
  fun_induction rounds round c with
  | case1 c xs c' run | case2 c xs e c' run | case4 c xs c' run =>
    have here := h c hc
    rw [StepTakesAt, run] at here
    exact ⟨here.passes, here.gives⟩
  | case3 c xs c' run shorter ys e c'' rest ih =>
    have here := h c hc
    rw [StepTakesAt, run] at here
    have later := ih (hc.passes here.passes)
    rw [rest] at later
    refine ⟨here.passes.trans later.passes, fun record taken whole ↦ ?_⟩
    obtain ⟨first, hfirst⟩ := here.passes.suffix
    obtain ⟨others, hothers⟩ := later.passes.suffix
    rw [taken_eq_append whole hfirst hothers]
    exact append (here.gives (later.passes.errors_nil record) first hfirst.symm)
      (later.gives record others hothers.symm)

/-- What the rounds of a loop have read is kept when one fails. -/
theorem Takes.gather {m : StateM Cursor (List α × Option ParseError)} {P : List Token →
    List α → Prop} (h : StepTakes clean ts (fun taken r ↦ P taken r.1) m) :
    Takes clean ts P (fun c ↦
      let ((read, _), c') := m c
      (.ok read, c')) := by
  intro c hc
  obtain ⟨passes, gives⟩ := h c hc
  exact ⟨passes, fun record taken rest x hx ↦ (Except.ok.inj hx) ▸ gives record taken rest⟩

/-- A loop that goes on at first gives something. -/
theorem manyWhile_ne_nil {continues : Parser Bool} {item : Parser α} {xs : List α}
    (h : continues c = (.ok true, c)) (run : Parser.manyWhile continues item c = (.ok xs, d)) :
    xs ≠ [] := by
  rw [Parser.manyWhile, Parser.many_apply] at run
  rcases first : (do if ← continues then return (some (← item), true) else return (none, false) :
    Parser (Option α × Bool)) c with ⟨e | x, b⟩
  · rw [rounds, Parser.manyRound_error first] at run
    cases run
  · obtain ⟨goOn, c', here, rest⟩ := Parser.bind_eq_ok first
    cases h.symm.trans here
    obtain ⟨y, c'', -, rest⟩ := Parser.bind_eq_ok rest
    cases rest
    rw [rounds, Parser.manyRound_ok first] at run
    change Parser.manyResult (if b.rest.length < c.rest.length then _ else _) = _ at run
    split at run
    · rcases later : rounds _ b with ⟨⟨ys, _ | e⟩, d'⟩
      · rw [later] at run
        cases run
        exact List.cons_ne_nil y ys
      · rw [later] at run
        cases run
    · cases run
      exact List.cons_ne_nil y []

section

variable {Q : List Token → List α → Prop}
  (append : ∀ {words later xs ys}, Q words xs → Q later ys → Q (words ++ later) (xs ++ ys))
include append

private theorem many_accounts {round : Parser (Option α × Bool)}
    (h : Accounts clean ts (fun words r ↦ Q words r.1.toList) round) :
    Accounts clean ts Q (Parser.many round) := by
  have step : StepTakes clean ts (fun taken r ↦ r.2.error? = none → Q (hosts taken) r.1)
      (Parser.manyRound round) := by
    refine StepTakes.bind h fun r ↦ ?_
    rcases r with e | ⟨x, goOn⟩
    · exact .pure fun _ _ ↦ nofun
    · refine .pure fun taken known _ ↦ ?_
      rw [List.append_nil]
      exact known _ rfl
  have whole := rounds_takes (P := fun e taken xs ↦ e = none → Q (hosts taken) xs)
    (fun here later none ↦ by rw [hosts_append]; exact append (here rfl) (later none)) step
  intro c hc
  obtain ⟨passes, gives⟩ := whole c hc
  have run : (Parser.many round).run c = Parser.manyResult (rounds (Parser.manyRound round) c) :=
    Parser.many_apply round c
  change Taken clean c (fun taken r ↦ ∀ xs, r = .ok xs → Q (hosts taken) xs)
    ((Parser.many round).run c)
  rw [run]
  generalize rounds (Parser.manyRound round) c = result at passes gives
  rcases result with ⟨⟨xs, e | e⟩, d⟩
  · exact ⟨passes, fun record taken rest x hx ↦ (Except.ok.inj hx) ▸ gives record taken rest rfl⟩
  · exact ⟨passes, fun _ _ _ _ ↦ nofun⟩

variable (nil : Q [] [])
include nil

/-- The words in items are found in the order of the items. -/
theorem manyWhile_accounts {continues : Parser Bool} {item : Parser α}
    (hcontinues : Idle clean ts continues)
    (hitem : Accounts clean ts (fun words x ↦ Q words [x]) item) :
    Accounts clean ts Q (Parser.manyWhile continues item) := by
  refine many_accounts append (.skip hcontinues fun b ↦ ?_)
  cases b with
  | false => exact .pure nil
  | true => exact .last hitem fun _ _ h ↦ h

/-- The words in items between commas are found in their order. -/
theorem commaList_accounts (close : Punctuation) {item : Parser α}
    (hitem : Accounts clean ts (fun words x ↦ Q words [x]) item) :
    Accounts clean ts Q (Parser.commaList close item) := by
  have round : Accounts clean ts (fun words r ↦ Q words r.1.toList)
      (Parser.commaRound close item) := by
    refine .skip (atSymbol_idle close) fun b ↦ ?_
    cases b with
    | true => exact .pure nil
    | false =>
      refine hitem.bind fun x ↦ ?_
      refine .skip (symbol?_idle .comma) fun _ ↦ .pure fun words h ↦ ?_
      rwa [List.append_nil]
  refine (many_accounts append round).bind fun xs ↦ ?_
  refine .skip (symbol_idle close) fun _ ↦ .pure fun words h ↦ ?_
  rwa [List.append_nil]

/-- The words in items in parentheses are found in their order, if there are parentheses. -/
theorem parenthesized?_accounts {item : Parser α}
    (hitem : Accounts clean ts (fun words x ↦ Q words [x]) item) :
    Accounts clean ts Q (Parser.parenthesized? item) := by
  refine .skip (symbol?_idle .leftParen) fun b ↦ ?_
  cases b with
  | true => exact commaList_accounts append nil .rightParen hitem
  | false => exact .pure nil

end

/-- Items without words between commas. -/
theorem commaList_idle (close : Punctuation) {item : Parser α} (hitem : Idle clean ts item) :
    Idle clean ts (Parser.commaList close item) :=
  commaList_accounts (Q := fun words _ ↦ words = []) (fun here later ↦ by rw [here, later]; rfl) rfl
    close hitem

/-- Items without words in parentheses, if there are parentheses. -/
theorem parenthesized?_idle {item : Parser α} (hitem : Idle clean ts item) :
    Idle clean ts (Parser.parenthesized? item) :=
  parenthesized?_accounts (Q := fun words _ ↦ words = [])
    (fun here later ↦ by rw [here, later]; rfl)
    rfl hitem

/-- What the rounds of a loop have read is kept when one fails. -/
theorem Accounts.gather {round : StateM Cursor (List α × RoundEnd)} {Q : List Token → List α → Prop}
    (append : ∀ {words later xs ys}, Q words xs → Q later ys → Q (words ++ later) (xs ++ ys))
    (h : StepAccounts clean ts (fun words r ↦ Q words r.1) round) :
    Accounts clean ts Q (fun c ↦
      let ((read, _), c') := rounds round c
      (.ok read, c')) :=
  Takes.gather (rounds_takes (P := fun _ taken xs ↦ Q (hosts taken) xs)
    (fun here later ↦ by rw [hosts_append]; exact append here later) h)

/-- The end of a statement takes no word. -/
theorem endStatement_idle : Idle clean ts Parser.endStatement :=
  .of_takes (endStatement_takes.imp fun _ _ newlines ↦
    hosts_eq_nil fun t ht ↦ by rw [newlines t ht]; rfl)

/-! ## Errors -/

/-- After an error on the record, there is nothing to show. -/
theorem Accounts.report {e : ParseError} {k : Unit → Parser α}
    (h : Accounts clean ts (fun later y ↦ ¬ clean → P later y) (k ())) :
    Accounts clean ts P (Parser.move (·.report e) >>= k) := by
  intro c hc
  have here : c.Passes (c.report e) := .report c e
  obtain ⟨passes, gives⟩ := h _ (hc.passes here)
  refine ⟨here.trans passes, fun record taken rest x hx ↦ ?_⟩
  refine gives record taken ((Cursor.rest_report c e).trans rest) x hx fun hclean ↦ ?_
  have errors := passes.errors_nil record hclean
  simp [Cursor.report, hc.valid hclean] at errors

/-- A parser that recovers from its error. Where it does, there is nothing to show. -/
theorem recovering_takes {p : Parser α} (hp : Takes clean ts P p) :
    StepTakes clean ts (fun taken r ↦ (∀ x ∈ r, P taken x) ∧ (r = none → ¬ clean))
      (Parser.recovering p) := by
  refine StepTakes.bind hp fun r ↦ ?_
  cases r with
  | ok x =>
    refine .pure fun taken h ↦ ⟨?_, nofun⟩
    rintro _ ⟨⟩
    rw [List.append_nil]
    exact h x rfl
  | error e => exact fun c hc ↦ .recover hc fun unclean later taken _ ↦ ⟨nofun, fun _ ↦ unclean⟩

/-- A parser that recovers accounts for what it gives, and gives nothing only after an error. -/
theorem recovering_accounts {p : Parser α} (hp : Accounts clean ts P p) :
    StepAccounts clean ts (fun words r ↦ (∀ x ∈ r, P words x) ∧ (r = none → ¬ clean))
      (Parser.recovering p) := recovering_takes hp

/-- A parser without words takes none when it recovers, unless a token is invalid. -/
theorem recovering_idle {p : Parser α} (hp : Idle clean ts p) :
    StepAccounts clean ts (fun words _ ↦ clean → words = []) (Parser.recovering p) := by
  refine (recovering_accounts hp).imp fun words r ⟨given, unclean⟩ hclean ↦ ?_
  cases r with
  | none => exact absurd hclean (unclean rfl)
  | some x => exact given x rfl

end

end ProseLang
