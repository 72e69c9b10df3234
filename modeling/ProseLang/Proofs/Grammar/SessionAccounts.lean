import ProseLang.Proofs.Grammar.Forward
import ProseLang.Proofs.Grammar.MadeSettings

/-!
# What sessions and agents are made from

Nothing is lost or left out where a session or an agent is read: there is one lemma for each
production (`property_accounts`, `session_accounts`, …), over what is known of the parsers of what
is nested in it (`Nested.Making`).
-/

namespace ProseLang

variable {clean : Prop} {ts : List Token} {c : Cursor} {g : Nested}

/-- Whether statements are made from some tokens: they have code, unless the tokens are one comment.
Before an error something may be missing. -/
structure Supplied (clean : Prop) (ts taken : List Token) (read : List Statement)
    (error : Option ParseError) : Prop where
  made : Made (clean ∧ error = none) ts (bodyVisits everywhere read) (hosts taken)
  code : error = none → hasCode read = true ∨ ∃ t, taken = [t] ∧ t.kind.isComment = true

/-- Behind an error nothing has to be accounted for. -/
theorem Supplied.of_error {taken : List Token} (e : ParseError) :
    Supplied clean ts taken [] (some e) where
  made := .of_not (List.forall_mem_nil _) fun h ↦ Option.some_ne_none e h.2
  code none := absurd none (Option.some_ne_none e)

/-- Whether what the parsers of nested constructs give is made from what they take. -/
structure Nested.Making (clean : Prop) (ts : List Token) (g : Nested) : Prop where
  depth : ∃ depth, g = .upTo depth
  value : ∀ pipes,
    Accounts clean ts (fun words e ↦ Made clean ts (e.visits everywhere) words) (g.value pipes)
  statement : ∀ pipes,
    StepTakes clean ts (fun taken r ↦ Supplied clean ts taken r.1 r.2) (g.statement pipes)
  properties : ∀ pipes,
    Accounts clean ts (fun words ps ↦ Made clean ts (propertyVisits everywhere ps) words)
      (g.properties pipes)

/-- The parsers of nested constructs move forward. -/
theorem Nested.forward_upTo (depth n : Nat) : (upTo depth).Forward n (upTo depth) := by
  induction depth generalizing n with
  | zero =>
    have fails (expected : String) {α : Type} :
        ProseLang.Forward n 1 (Parser.unexpected expected : Parser α)
          (Parser.unexpected expected) :=
      .unexpected expected
    exact ⟨fun _ ↦ fails _, fun _ c _ ↦ ⟨rfl, .refl c, Nat.le_refl _⟩, fun _ ↦ fails _⟩
  | succ depth ih =>
    cases n with
    | zero => constructor <;> exact fun _ c hc ↦ absurd hc.length_lt (Nat.not_lt_zero _)
    | succ n => exact (ih n).deeper

private theorem Nested.Making.forward (hg : g.Making clean ts) (n : Nat) : g.Forward n g := by
  obtain ⟨depth, rfl⟩ := hg.depth
  exact forward_upTo depth n

/-- What is told of accounts for what it is told of. -/
theorem AccountsAt.of_tells {α τ : Type} {P : List Token → τ → Prop} {Q : List Token → α → Prop}
    {R : τ → α → Prop} {p : Parser α} {q : Parser τ} (passes : c.Passes (p c).2)
    (tells : Parser.Tells R p q) (h : AccountsAt clean c P q)
    (hQ : ∀ words t x d, q c = (.ok t, d) → R t x → P words t → Q words x) :
    AccountsAt clean c Q p := by
  refine ⟨passes, fun record taken rest x hx ↦ ?_⟩
  obtain ⟨t, told, made⟩ := tells c x (p c).2 (Prod.ext hx rfl)
  have gives := h.gives
  rw [ExceptT.run, told] at gives
  exact hQ (hosts taken) t x _ told made (gives record taken rest t rfl)

namespace Parser

/-! ## Modifiers and contexts -/

private theorem modifierKey?_idle : Idle clean ts modifierKey? := by
  refine .peek fun c hc ↦ ?_
  split
  · next word hk =>
    -- the colon is taken where the look ahead saw it
    refine .peekNext ?_
    dsimp only
    split
    · exact .of_error rfl (.refl c)
    · next colon =>
      have ahead := c.rest_eq_cons hc.final (by rw [hk]; nofun)
      have after : c.advance.current.kind = .symbol .colon := by
        rw [Cursor.current_advance (by rw [ahead]; nofun)]
        exact Decidable.not_not.1 colon
      have run : name "a modifier name" c = (.ok ⟨word, c.current.span⟩, c.advance) := by
        refine (bind_apply (p := peek) (d := c) rfl).trans ?_
        rw [hk]
        rfl
      refine TakesAt.bind_of_run run (.advance c) (u := [c.current]) ahead ?_
      refine StepTakesAt.imp (AccountsAt.take (Q := fun words _ ↦ words = [])
        (hc.passes (.advance c)) after nofun rfl (.pure rfl)) ?_
      intro later r given x hx
      change hosts ([c.current] ++ later) = []
      rw [hosts_append, hosts_singleton (by rw [hk]; rfl), given x hx]
      rfl
  · exact .of hc (.pure rfl)

private theorem modifierValue_idle : Idle clean ts modifierValue := by
  refine .peek fun c hc ↦ ?_
  split
  · exact .of hc (string_idle _).map
  · next digits hk => exact .take hc hk nofun rfl (.pure rfl)
  · exact .of_error rfl (.refl c)
  · exact .of hc (.unexpected _)

private theorem modifiers_idle : Idle clean ts modifiers := by
  refine (symbol_idle _).bind fun _ ↦ commaList_idle _ ?_
  refine .cursor fun c hc ↦ .of hc ?_
  refine modifierKey?_idle.bind fun key ↦ modifierValue_idle.bind fun value ↦ ?_
  exact .spanFrom fun _ ↦ .pure rfl

/-- Modifiers take no such word. -/
theorem modifiers?_idle : Idle clean ts modifiers? := by
  refine (atSymbol_idle _).bind fun b ↦ ?_
  split
  · exact modifiers_idle
  · exact .pure _

/-- Names in brackets or braces are a context that has some, or the empty one. -/
theorem contextNames_accounts {close : Punctuation} {make : List Ident → Context}
    (hmake : ∀ names, names.isEmpty = false → (Visit.context (make names)).isComplete = true
      ∧ make names ≠ .implicit) (hc : c.On clean ts) {kind : TokenKind} (hk : c.current.kind = kind)
    (hkind : kind ≠ .endOfFile) (idle : kind.isHost = false) :
    AccountsAt clean c (fun words x ↦ words = [] ∧ (Visit.context x).isComplete = true
      ∧ x ≠ .implicit) (contextNames close make) := by
  refine .take hc hk hkind idle ?_
  refine .skip (commaList_idle _ (name_idle _)) fun names ↦ .pure ⟨rfl, ?_⟩
  split
  · exact ⟨rfl, nofun⟩
  · next some => exact hmake names (by simpa using some)

private theorem context_accounts :
    Accounts clean ts (fun words x ↦ words = [] ∧ (Visit.context x).isComplete = true
      ∧ x ≠ .implicit) context := by
  refine .peek fun c hc ↦ ?_
  split
  · exact .of hc (.map (name_idle _) fun _ _ h ↦ ⟨h, rfl, nofun⟩)
  · next hk =>
    refine contextNames_accounts (fun names some ↦ ⟨?_, nofun⟩) hc hk nofun rfl
    simp [Visit.isComplete, Visit.bodies, Visit.isFilled, some]
  · next hk =>
    refine contextNames_accounts (fun names some ↦ ⟨?_, nofun⟩) hc hk nofun rfl
    simp [Visit.isComplete, Visit.bodies, Visit.isFilled, some]
  · exact .of hc (.unexpected _)

/-- A reserved word may be a key. -/
theorem propertyKey_accounts :
    Accounts clean ts (fun words x ↦ ∀ t ∈ words, t.span = x.span) propertyKey := by
  have plain : Accounts clean ts (fun words x ↦ ∀ t ∈ words, t.span = x.span)
      (name "a property name") :=
    (name_idle _).imp fun _ _ h ↦ by rw [h]; exact fun _ ht ↦ absurd ht List.not_mem_nil
  refine .peek fun c hc ↦ ?_
  split
  · next word hk =>
    -- the word is taken where the cursor stood before the look ahead
    refine .peekNext ?_
    split
    · refine TakesAt.take hc (by rw [hk]; nofun) ?_
      refine Takes.pure (fun t ht ↦ ?_) _ (hc.passes (.advance c))
      rw [List.mem_singleton.1 ((List.mem_filter.1 ht).1)]
    · exact .of hc plain
  · exact .of hc plain

/-! ## Sessions and agents -/

/-- A name that may be there or not. -/
theorem name_optional_accounts {α : Type} {Q : List Token → α → Prop} {role : String}
    {k : Option Ident → Parser α} (hc : c.On clean ts) (hk : ∀ x, Accounts clean ts Q (k x)) :
    AccountsAt clean c Q (match c.current.kind with
      | .identifier _ => some <$> name role >>= k
      | _ => pure none >>= k) := by
  split
  · exact .of hc (.skip (name_idle role).map hk)
  · exact .of hc (.skip (.pure none) hk)

/-- A string that may be there or not. -/
theorem string_optional_accounts {α : Type} {Q : List Token → α → Prop} {role : String}
    {k : Option StringLit → Parser α} (hc : c.On clean ts) (hk : ∀ x, Accounts clean ts Q (k x)) :
    AccountsAt clean c Q (match c.current.kind with
      | .string _ => some <$> string role >>= k
      | _ => pure none >>= k) := by
  split
  · exact .of hc (.skip (string_idle role).map hk)
  · exact .of hc (.skip (.pure none) hk)

section Nested

variable (hg : g.Making clean ts) (pipes : Bool)
include hg

private theorem property_accounts :
    Accounts clean ts (fun words p ↦ Made clean ts (propertyVisits everywhere [p]) words)
      (property g pipes) := by
  refine propertyKey_accounts.bind fun key ↦ .skip (symbol_idle _) fun _ ↦ ?_
  have close {p : Parser PropertyValue} (hp : Accounts clean ts (fun words value ↦
      value ≠ .context .implicit ∧ Made clean ts (value.visits everywhere) words) p) :
      Accounts clean ts (fun later q ↦ ∀ words : List Token, (∀ t ∈ words, t.span = key.span) →
        Made clean ts (propertyVisits everywhere [q]) (words ++ later)) (do
          let value ← p
          return { key, value, span := ← spanFrom key.span }) := by
    refine hp.close fun later value span read words own ↦ ?_
    rw [propertyVisits, propertyVisits, List.append_nil]
    exact read.2.owning own read.1 rfl
  refine .cursor fun c hc ↦ ?_
  split
  · refine .of hc (close (context_accounts.map ?_))
    rintro words x ⟨rfl, complete, explicit⟩
    exact ⟨fun same ↦ explicit (PropertyValue.context.inj same),
      .cons trivial (fun _ ↦ complete) .nil⟩
  · split
    · exact .of hc (close ((hg.properties pipes).map fun words ps made ↦ ⟨by simp, made⟩))
    · exact .of hc (close ((hg.value pipes).map fun words e made ↦ ⟨by simp, made⟩))

private theorem propertyRound_accounts :
    StepAccounts clean ts (fun words r ↦ Made clean ts (propertyVisits everywhere r.1) words)
      (propertyRound g pipes) := by
  refine .skip Cursor.Passes.skipBlanks Cursor.hosts_of_skipBlanks (.cursor fun c hc ↦ ?_)
  split
  · exact .of hc (.pure .nil)
  · exact .of hc (.pure .nil)
  · refine .of hc (.bind (recovering_accounts (property_accounts hg pipes)) fun r ↦ ?_)
    cases r with
    | none => exact .pure fun _ ⟨_, unclean⟩ ↦ .of_not nofun (unclean rfl)
    | some p =>
      refine .bind (recovering_idle endStatement_idle) fun _ ↦ .pure ?_
      intro ends idle words made
      rw [List.append_nil]
      exact (made.1 p rfl).append_idle idle

/-- The words in a block of properties belong to its parts. -/
theorem propertyBlock_accounts :
    Accounts clean ts (fun words ps ↦ Made clean ts (propertyVisits everywhere ps) words)
      (propertyBlock g pipes) := by
  refine .skip (expect_idle _ nofun rfl) fun _ ↦ .skip (expect_idle _ nofun rfl) fun _ ↦ ?_
  refine .bind (.gather (Q := fun words ps ↦ Made clean ts (propertyVisits everywhere ps) words)
    (.several propertyVisits_append) (propertyRound_accounts hg pipes)) fun ps ↦ ?_
  refine .skip (expect_idle _ nofun rfl) fun _ ↦ .pure fun words made ↦ ?_
  rwa [List.append_nil]

private theorem inlineProperties_accounts :
    Accounts clean ts (fun words ps ↦ Made clean ts (propertyVisits everywhere ps) words)
      (inlineProperties g pipes) :=
  .skip (symbol_idle _) fun _ ↦
    commaList_accounts (.several propertyVisits_append) .nil _ (property_accounts hg pipes)

private theorem detailsText_accounts :
    Accounts clean ts (fun words r ↦ Made clean ts (propertyVisits everywhere r.2) words)
      (detailsText g pipes) := by
  refine .peek fun c hc ↦ ?_
  split
  · refine .of hc (.skip (name_idle _) fun agent ↦ .cursor fun c hc ↦ ?_)
    split
    · exact .of hc (.last (propertyBlock_accounts hg pipes) fun _ _ h ↦ h)
    · exact .of hc (.pure .nil)
  · exact .of hc (.last (inlineProperties_accounts hg pipes) fun _ _ h ↦ h)
  · refine .of hc (.cursor fun c hc ↦ ?_)
    split
    · exact .of hc (.last (propertyBlock_accounts hg pipes) fun _ _ h ↦ h)
    · exact .of hc (.missingBlock _)

/-- The text of a session without the reserved word in front. -/
theorem sessionText_rest_accounts (first : Span) :
    Accounts clean ts (fun words text ↦ text.span.start = first.start
      ∧ Made clean ts (propertyVisits everywhere text.properties) words) (do
        let name ← match ← peek with
          | .identifier _ => some <$> name "a session name"
          | _ => pure none
        let prompt ← match ← peek with
          | .string _ => some <$> string "a prompt"
          | _ => pure none
        let modifiers ← modifiers?
        let (agent, properties) ← if ← symbol? .colon then detailsText g pipes else pure (none, [])
        return { name, prompt, modifiers, agent, properties, span := ← spanFrom first : SessionText }) := by
  refine .peek fun c hc ↦ name_optional_accounts hc fun name ↦ ?_
  refine .peek fun c hc ↦ string_optional_accounts hc fun prompt ↦ ?_
  refine .skip modifiers?_idle fun modifiers ↦ .skip (symbol?_idle _) fun b ↦ ?_
  have close {p : Parser (Option Ident × List Property)} (hp : Accounts clean ts (fun words r ↦
      Made clean ts (propertyVisits everywhere r.2) words) p) :
      Accounts clean ts (fun words (text : SessionText) ↦ text.span.start = first.start
        ∧ Made clean ts (propertyVisits everywhere text.properties) words) (do
          let (agent, properties) ← p
          return { name, prompt, modifiers, agent, properties, span := ← spanFrom first }) := by
    refine hp.bind fun r ↦ .cursor fun c hc ↦ .of hc (.pure fun words made ↦ ?_)
    rw [List.append_nil]
    exact ⟨rfl, made⟩
  split
  · exact close (detailsText_accounts hg pipes)
  · exact close (.pure .nil)

private theorem sessionText_accounts :
    Accounts clean ts (fun words text ↦ ∃ first rest, words = ⟨.keyword .session, first⟩ :: rest
      ∧ text.span.start = first.start
      ∧ Made clean ts (propertyVisits everywhere text.properties) rest) (sessionText g pipes) := by
  refine Takes.bind (keyword_takes .session) fun first ↦ ?_
  refine Takes.imp (sessionText_rest_accounts hg pipes first)
    fun later text ⟨starts, made⟩ taken here ↦
    ⟨first, hosts later, ?_, starts, made⟩
  rw [here]
  rfl

/-- A session, with whatever arrow comes after it. -/
theorem session_accounts :
    Accounts clean ts (fun words s ↦ ∀ arrow,
      Made clean ts ((Expr.action (.session { s with arrow })).visits everywhere) words)
      (session g pipes) := by
  intro c hc
  have passes : c.Passes (session g pipes c).2 :=
    (session_forward (hg.forward c.rest.length) pipes c ⟨hc.final, Nat.lt_succ_self _⟩).passes
  obtain ⟨depth, rfl⟩ := hg.depth
  refine .of_tells passes (session_tells _ pipes) (sessionText_accounts hg pipes c hc) ?_
  rintro words text s d read built ⟨first, rest, rfl, starts, parts⟩
  exact text.made built (hc.readIn read) starts parts

private theorem agentText_accounts :
    Accounts clean ts (fun words text ↦ ∃ first rest, words = ⟨.keyword .agent, first⟩ :: rest
      ∧ text.span.start = first.start
      ∧ Made clean ts (propertyVisits everywhere text.properties) rest) (agentText g pipes) := by
  refine Takes.bind (keyword_takes .agent) fun first ↦ ?_
  suffices rest : Accounts clean ts (fun words (text : AgentText) ↦ text.span.start = first.start
      ∧ Made clean ts (propertyVisits everywhere text.properties) words) (do
        let name ← name "an agent name"
        symbol .colon
        if !(← cursor).atBlock then missingBlock .agentDefinition
        let properties ← propertyBlock g pipes
        return { keyword := first, name, properties, span := ← spanFrom first }) by
    refine Takes.imp rest fun later text ⟨starts, made⟩ taken here ↦
      ⟨first, hosts later, ?_, starts, made⟩
    rw [here]
    rfl
  refine .skip (name_idle _) fun name ↦ .skip (symbol_idle _) fun _ ↦ .cursor fun c hc ↦ .of hc ?_
  have close : Accounts clean ts (fun words (text : AgentText) ↦ text.span.start = first.start
      ∧ Made clean ts (propertyVisits everywhere text.properties) words) (do
        let properties ← propertyBlock g pipes
        return { keyword := first, name, properties, span := ← spanFrom first }) := by
    refine (propertyBlock_accounts hg pipes).bind fun ps ↦ .cursor fun c hc ↦ .of hc (.pure ?_)
    intro words made
    rw [List.append_nil]
    exact ⟨rfl, made⟩
  split
  · exact .skip (.missingBlock _) fun _ ↦ close
  · exact close

/-- The words in the definition of an agent belong to its parts. -/
theorem agent_accounts :
    Accounts clean ts (fun words a ↦ Made clean ts (bodyVisits everywhere [.agent a]) words)
      (agent g pipes) := by
  intro c hc
  have passes : c.Passes (agent g pipes c).2 :=
    (agent_forward (hg.forward c.rest.length) pipes c ⟨hc.final, Nat.lt_succ_self _⟩).passes
  obtain ⟨depth, rfl⟩ := hg.depth
  refine .of_tells passes (agent_tells _ pipes) (agentText_accounts hg pipes c hc) ?_
  rintro words text a d read built ⟨first, rest, rfl, starts, parts⟩
  exact text.made built (hc.readIn read) starts parts

end Nested

end Parser

end ProseLang
