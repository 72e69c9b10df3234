import ProseLang.Proofs.Grammar.Provenance
import ProseLang.Proofs.Grammar.Settings

/-!
# Where the leaves of values come from

What is read is read faithfully: every leaf is one of the tokens, whatever the tokens are and
whatever is wrong with them. There is one lemma for each production (`session_gives`,
`primary_gives`, …), over what is known of the parsers of what is nested in it (`Nested.Faithful`).
This module has sessions, agents, bodies, values and pipes.
-/

namespace ProseLang

variable {ts : List Token} {c : Cursor} {g : Nested}

/-- Whether a statement starts where one of some tokens does. -/
def Statement.StartsAt (ts : List Token) (s : Statement) : Prop :=
  ∃ t ∈ ts, s.span.start = t.span.start

/-- Whether the leaves of a statement are read from some tokens, and it starts with one of them. -/
def Statement.IsRead (ts : List Token) (s : Statement) : Prop :=
  s.Has (Leaf.IsRead ts) ∧ s.StartsAt ts

/-- Whether what the parsers of nested constructs give is read from some tokens. -/
structure Nested.Faithful (ts : List Token) (g : Nested) : Prop where
  value : ∀ pipes, Gives ts (fun e ↦ e.Has (Leaf.IsRead ts)) (g.value pipes)
  statement : ∀ pipes, Finds ts (fun r ↦ ∀ s ∈ r.1, s.IsRead ts) (g.statement pipes)
  properties : ∀ pipes,
    Gives ts (fun ps ↦ ∀ p ∈ ps, p.Has (Leaf.IsRead ts)) (g.properties pipes)

/-- What is read from some tokens is read from them as a setting too. -/
theorem settable_isRead : Leaf.Settable (Leaf.IsRead ts) where
  quoted h := by
    obtain ⟨literal, member, eq⟩ := h
    exact ⟨literal, member, by rw [← eq]; rfl⟩
  named h := .inl h
  model h := .inr h
  count := isRead_countOf

/-- A session with one more property. -/
theorem session_withProperty_has {s s' : Session} {p : Property} (hs : s.Has (Leaf.IsRead ts))
    (hp : p.Has (Leaf.IsRead ts)) (h : s.withProperty p = .ok s') : s'.Has (Leaf.IsRead ts) := by
  obtain ⟨sets, kept⟩ := session_withProperty_sets settable_isRead hs.toSets hp.shows h
  refine { sets with properties := fun q hq ↦ ?_ }
  rcases kept q hq with hq | rfl
  · exact hs.properties q hq
  · exact hp

/-- An agent with one more property. -/
theorem agent_withProperty_has {a a' : Agent} {p : Property} (ha : a.Has (Leaf.IsRead ts))
    (hp : p.Has (Leaf.IsRead ts)) (h : a.withProperty p = .ok a') : a'.Has (Leaf.IsRead ts) := by
  obtain ⟨sets, kept, groups⟩ := agent_withProperty_sets settable_isRead ha.toSets hp.shows h
  refine { sets with permissions := fun group hgroup ↦ ?_, properties := fun q hq ↦ ?_ }
  · rcases groups group hgroup with hgroup | eq
    · exact ha.permissions group hgroup
    · exact has_property_nested.1 (eq ▸ hp.2)
  · rcases kept q hq with hq | rfl
    · exact ha.properties q hq
    · exact hp

/-- A word that stands for an operator is its word. -/
theorem PipeOperator.text_of_ofText? {word : String} {o : PipeOperator}
    (h : PipeOperator.ofText? word = some o) : o.text = word := by
  rw [PipeOperator.ofText?] at h
  simpa using List.find?_some h

namespace Parser

private theorem modifierKey?_gives :
    Gives ts (fun r ↦ ∀ x ∈ r, Leaf.IsRead ts (.key x)) modifierKey? := by
  refine .peek fun c hc ↦ ?_
  split
  · refine Gives.peekNext (fun next ↦ ?_) c hc
    split
    · exact .cursor fun c ↦ .throw _
    · refine (name_gives _).bind fun key hkey ↦ ?_
      refine .take fun _ ↦ .pure ?_
      rintro _ ⟨⟩
      exact .inl hkey
  · exact Gives.pure nofun c hc

private theorem modifierValue_gives :
    Gives ts (fun v ↦ (∀ s, v = .string s → Leaf.IsRead ts (.string s))
      ∧ ∀ digits, v = .number digits → Leaf.IsRead ts (.numeral digits)) modifierValue := by
  refine .peek fun c hc ↦ ?_
  split
  · refine Gives.map (string_gives _) (fun s hs ↦ ⟨?_, nofun⟩) c hc
    rintro _ ⟨⟩
    exact hs
  · next digits hk =>
    refine Gives.take_at hc (by rw [hk]; rfl) fun _ ↦ .pure ⟨nofun, ?_⟩
    rintro _ ⟨⟩
    exact hc.mem_of_kind hk rfl
  · exact Gives.cursor (fun c ↦ .throw _) c hc
  · exact Gives.unexpected _ c hc

private theorem modifiers_gives : Gives ts (fun ms ↦ ∀ m ∈ ms, m.Has (Leaf.IsRead ts))
    modifiers := by
  refine (symbol_gives _).bind fun _ _ ↦ commaList_gives _ ?_
  refine .cursor fun c ↦ ?_
  refine modifierKey?_gives.bind fun key hkey ↦ ?_
  refine modifierValue_gives.bind fun value hvalue ↦ ?_
  exact .spanFrom fun span ↦ .pure ⟨hkey, hvalue.1, hvalue.2⟩

/-- Modifiers are read from tokens. -/
theorem modifiers?_gives : Gives ts (fun ms ↦ ∀ m ∈ ms, m.Has (Leaf.IsRead ts)) modifiers? := by
  refine (atSymbol_gives _).bind fun b _ ↦ ?_
  split
  · exact modifiers_gives
  · exact .pure nofun

private theorem contextNames_gives (close : Punctuation) {make : List Ident → Context}
    (hmake : ∀ names, (make names).names = names) :
    Gives ts (fun c ↦ ∀ x ∈ c.names, Leaf.IsRead ts (.name x)) (contextNames close make) := by
  refine .take fun _ ↦ ?_
  refine (commaList_gives close (name_gives _)).bind fun names hnames ↦ ?_
  refine .pure ?_
  split
  · exact nofun
  · rwa [hmake]

private theorem context_gives :
    Gives ts (fun c ↦ ∀ x ∈ c.names, Leaf.IsRead ts (.name x)) context := by
  refine .peek fun c hc ↦ ?_
  split
  · refine Gives.map (name_gives _) (fun x hx ↦ ?_) c hc
    exact List.forall_mem_singleton.2 hx
  · exact contextNames_gives _ (fun _ ↦ rfl) c hc
  · exact contextNames_gives _ (fun _ ↦ rfl) c hc
  · exact Gives.unexpected _ c hc

private theorem propertyKey_gives : Gives ts (fun x ↦ Leaf.IsRead ts (.key x)) propertyKey := by
  have plain : Gives ts (fun x ↦ Leaf.IsRead ts (.key x)) (name "a property name") :=
    (name_gives _).imp fun _ hx ↦ .inl hx
  refine .peek fun c hc ↦ ?_
  split
  · next word hk =>
    -- the word is taken where the cursor stood before the look ahead
    change GivesAt ts c _ (if c.next.kind = .symbol .colon then _ else _)
    split
    · refine Gives.take_at hc (by rw [hk]; rfl) fun _ ↦ .pure ?_
      exact .inr ⟨word, hc.mem_of_kind hk rfl, rfl⟩
    · exact plain c hc
  · exact plain c hc

/-- A session with what is written in its properties. -/
theorem withProperties_gives {s : Session}
    (hs : s.Has (Leaf.IsRead ts)) {p : Parser (List Property)}
    (hp : Gives ts (fun ps ↦ ∀ p ∈ ps, p.Has (Leaf.IsRead ts)) p) :
    Gives ts (fun s ↦ s.Has (Leaf.IsRead ts)) (do s.withProperties (← p)) :=
  hp.bind fun _ hps ↦ .lift fun _ run ↦
    foldlM_keeps (f := SessionOf.withProperty) (fun _ _ _ ↦ session_withProperty_has) hs hps run

/-- A name that may be there or not. -/
theorem name_optional {α : Type} {P : α → Prop} {role : String} {k : Option Ident → Parser α}
    (hc : c.Within ts) (hk : ∀ x, (∀ y ∈ x, Leaf.IsRead ts (.name y)) → Gives ts P (k x)) :
    GivesAt ts c P (match c.current.kind with
      | .identifier _ => some <$> name role >>= k
      | _ => pure none >>= k) := by
  split
  · refine Gives.bind ((name_gives role).map (Q := fun x ↦ ∀ y ∈ x, Leaf.IsRead ts (.name y)) ?_)
      hk c hc
    rintro x hx _ ⟨⟩
    exact hx
  · exact Gives.bind (.pure (x := none) (P := fun x ↦ ∀ y ∈ x, Leaf.IsRead ts (.name y)) nofun)
      hk c hc

/-- A string that may be there or not. -/
theorem string_optional {α : Type} {P : α → Prop} {role : String} {k : Option StringLit → Parser α}
    (hc : c.Within ts) (hk : ∀ x, (∀ y ∈ x, Leaf.IsRead ts (.string y)) → Gives ts P (k x)) :
    GivesAt ts c P (match c.current.kind with
      | .string _ => some <$> string role >>= k
      | _ => pure none >>= k) := by
  split
  · refine Gives.bind
      ((string_gives role).map (Q := fun x ↦ ∀ y ∈ x, Leaf.IsRead ts (.string y)) ?_) hk c hc
    rintro x hx _ ⟨⟩
    exact hx
  · exact Gives.bind (.pure (x := none) (P := fun x ↦ ∀ y ∈ x, Leaf.IsRead ts (.string y)) nofun)
      hk c hc

private theorem statementRound_finds (inBlock : Bool) {statement : StatementParser}
    (h : Finds ts (fun r ↦ ∀ s ∈ r.1, s.IsRead ts) statement) :
    Finds ts (fun r ↦ ∀ s ∈ r.1, s.IsRead ts) (statementRound statement inBlock) := by
  refine .move (fun c hc ↦ hc.skipNewlines) ?_
  refine .cursor fun c ↦ ?_
  dsimp only
  split
  · exact .pure nofun
  · split
    · exact .pure nofun
    · exact .move (fun c hc ↦ hc.advance) (.pure nofun)
  · exact .move (fun c hc ↦ hc.recover _) (.pure nofun)
  · refine h.bind fun r hr ↦ ?_
    rcases r with ⟨read, e | e⟩
    · exact (recovering_finds endStatement_gives).bind fun _ _ ↦ .pure hr
    · exact .move (fun c hc ↦ hc.recover _) (.pure hr)

/-- Statements are read from tokens when each of them is. -/
theorem statements_finds (inBlock : Bool) {statement : StatementParser}
    (h : Finds ts (fun r ↦ ∀ s ∈ r.1, s.IsRead ts) statement) :
    Finds ts (fun body ↦ ∀ s ∈ body, s.IsRead ts) (statements statement inBlock) :=
  rounds_finds (statementRound_finds inBlock h)

section Nested

variable (hg : g.Faithful ts) (pipes : Bool)
include hg

private theorem property_gives : Gives ts (fun p ↦ p.Has (Leaf.IsRead ts)) (property g pipes) := by
  refine propertyKey_gives.bind fun key hkey ↦ ?_
  refine (symbol_gives _).bind fun _ _ ↦ ?_
  have close {p : Parser PropertyValue} (hp : Gives ts (·.Has (Leaf.IsRead ts)) p) :
      Gives ts (fun p : Property ↦ p.Has (Leaf.IsRead ts)) (do
        let value ← p
        return { key, value, span := ← spanFrom key.span }) :=
    hp.bind fun value hvalue ↦ .spanFrom fun span ↦ .pure ⟨hkey, hvalue⟩
  refine .cursor fun c ↦ ?_
  split
  · exact close (context_gives.map fun _ ↦ has_property_context.2)
  · split
    · exact close ((hg.properties pipes).map fun _ ↦ has_property_nested.2)
    · exact close ((hg.value pipes).map fun _ ↦ has_property_expr.2)

private theorem propertyRound_finds :
    Finds ts (fun r ↦ ∀ p ∈ r.1, p.Has (Leaf.IsRead ts)) (propertyRound g pipes) := by
  refine .move (fun c hc ↦ hc.skipNewlines.skipComments) ?_
  refine .cursor fun c ↦ ?_
  split
  · exact .pure nofun
  · exact .pure nofun
  · refine (recovering_finds (property_gives hg pipes)).bind fun r hr ↦ ?_
    cases r with
    | none => exact .pure nofun
    | some p =>
      refine (recovering_finds endStatement_gives).bind fun _ _ ↦ .pure ?_
      exact List.forall_mem_singleton.2 (hr p rfl)

/-- Properties are read from tokens. -/
theorem propertyBlock_gives :
    Gives ts (fun ps ↦ ∀ p ∈ ps, p.Has (Leaf.IsRead ts)) (propertyBlock g pipes) := by
  refine (expect_layout _).bind fun _ _ ↦ ?_
  refine (expect_layout _).bind fun _ _ ↦ ?_
  refine Gives.bind (.gather (rounds_finds (propertyRound_finds hg pipes))) fun ps hps ↦ ?_
  exact (expect_layout _).bind fun _ _ ↦ .pure hps

private theorem inlineProperties_gives :
    Gives ts (fun ps ↦ ∀ p ∈ ps, p.Has (Leaf.IsRead ts)) (inlineProperties g pipes) :=
  (symbol_gives _).bind fun _ _ ↦ commaList_gives _ (property_gives hg pipes)

private theorem sessionDetails_gives {s : Session} (hs : s.Has (Leaf.IsRead ts)) :
    Gives ts (fun s ↦ s.Has (Leaf.IsRead ts)) (sessionDetails g pipes s) := by
  refine .peek fun c hc ↦ ?_
  split
  · refine Gives.bind (name_gives _) (fun agent hagent ↦ ?_) c hc
    have withAgent : SessionOf.Has (Leaf.IsRead ts) { s with agent := some agent } :=
      { hs with agent := by rintro _ ⟨⟩; exact hagent }
    refine .cursor fun c ↦ ?_
    split
    · exact withProperties_gives withAgent (propertyBlock_gives hg pipes)
    · exact .pure withAgent
  · exact withProperties_gives hs (inlineProperties_gives hg pipes) c hc
  · refine Gives.cursor (fun c ↦ ?_) c hc
    split
    · exact withProperties_gives hs (propertyBlock_gives hg pipes)
    · exact .missingBlock _

/-- A session is read from tokens. -/
theorem session_gives : Gives ts (fun s ↦ s.Has (Leaf.IsRead ts)) (session g pipes) := by
  refine (keyword_gives _).bind fun first _ ↦ ?_
  refine .peek fun c hc ↦ name_optional hc fun name hname ↦ ?_
  refine .peek fun c hc ↦ string_optional hc fun prompt hprompt ↦ ?_
  refine modifiers?_gives.bind fun ms hms ↦ ?_
  have named : SessionOf.Has (Leaf.IsRead ts) { name, prompt } := by
    refine ⟨?_, nofun⟩
    constructor <;> first | assumption | nofun
  have modified : Gives ts (fun s ↦ s.Has (Leaf.IsRead ts))
      (liftM (SessionOf.withModifiers { name, prompt } ms)) := by
    refine .lift fun _ run ↦ foldlM_keeps (f := SessionOf.withModifier) ?_ named hms run
    intro s m s' hs hm h
    obtain ⟨sets, same⟩ := session_withModifier_sets settable_isRead hs.toSets hm h
    exact { sets with properties := same ▸ hs.properties }
  refine modified.bind fun s hs ↦ (symbol?_gives _).bind fun b _ ↦ ?_
  have close {s : Session} (hs : s.Has (Leaf.IsRead ts)) :
      Gives ts (fun s ↦ s.Has (Leaf.IsRead ts)) (do
        return { s with span := ← spanFrom first }) :=
    .spanFrom fun _ ↦ .pure { hs with }
  split
  · exact (sessionDetails_gives hg pipes hs).bind fun _ ↦ close
  · exact Gives.bind (.pure hs) fun _ ↦ close

/-- The definition of an agent is read from tokens. -/
theorem agent_gives : Gives ts (fun a ↦ a.Has (Leaf.IsRead ts)) (agent g pipes) := by
  refine (keyword_gives _).bind fun first _ ↦ ?_
  refine (name_gives _).bind fun name hname ↦ ?_
  refine (symbol_gives _).bind fun _ _ ↦ .cursor fun c ↦ ?_
  have named : AgentOf.Has (Leaf.IsRead ts)
      { name, model := none, prompt := none, skills := [], permissions := none, properties := [],
        keys := [], span := first } := by
    refine ⟨?_, nofun, nofun⟩
    constructor <;> first | assumption | nofun
  have properties {p : Parser Unit} (hp : Gives ts (fun _ ↦ True) p) :
      Gives ts (fun a ↦ a.Has (Leaf.IsRead ts)) (do
        p
        let a ← AgentOf.withProperties
          { name, model := none, prompt := none, skills := [], permissions := none, properties := [],
            keys := [], span := first } (← propertyBlock g pipes)
        return { a with span := ← spanFrom first }) := by
    refine hp.bind fun _ _ ↦ (propertyBlock_gives hg pipes).bind fun ps hps ↦ ?_
    refine Gives.bind (P := fun a ↦ a.Has (Leaf.IsRead ts)) (.lift fun _ run ↦ ?_) fun a ha ↦ ?_
    · exact foldlM_keeps (f := AgentOf.withProperty) (fun _ _ _ ↦ agent_withProperty_has)
        named hps run
    · exact .spanFrom fun _ ↦ .pure { ha with }
  split
  · exact properties (.missingBlock _)
  · exact properties (p := pure ()) (.pure trivial)

/-! ## Bodies and values -/

private theorem indentedBody_gives : Gives ts (BodyHas (Leaf.IsRead ts)) (indentedBody g) := by
  refine .take fun _ ↦ .take fun _ ↦ ?_
  refine (Gives.of_finds (statements_finds true (hg.statement true))).bind fun body hbody ↦ ?_
  exact (expect_layout _).bind fun _ _ ↦ .pure fun s hs ↦ (hbody s hs).1

private theorem blockBody_gives (construct : Construct) :
    Gives ts (BodyHas (Leaf.IsRead ts)) (blockBody g construct) := by
  refine .cursor fun c ↦ ?_
  split
  · exact indentedBody_gives hg
  · exact .missingBlock _

/-- The body of a block is read from tokens, if there is one. -/
theorem blockBody?_gives : Gives ts (BodyHas (Leaf.IsRead ts)) (blockBody? g) := by
  refine .cursor fun c ↦ ?_
  split
  · exact indentedBody_gives hg
  · exact .pure nofun

/-- The body of a block is read from tokens. -/
theorem block_gives (construct : Construct) :
    Gives ts (BodyHas (Leaf.IsRead ts)) (block g construct) :=
  (symbol_gives _).bind fun _ _ ↦ blockBody_gives hg construct

/-- A `do` is read from tokens. -/
theorem doAction_gives : Gives ts (fun a ↦ a.Has (Leaf.IsRead ts)) (doAction g pipes) := by
  refine (keyword_gives _).bind fun first _ ↦ (atSymbol_gives _).bind fun b _ ↦ ?_
  split
  · refine (block_gives hg _).bind fun body hbody ↦ ?_
    exact .spanFrom fun _ ↦ .pure (has_doBlock.2 hbody)
  · refine (name_gives _).bind fun name hname ↦ ?_
    refine (parenthesized?_gives (hg.value pipes)).bind fun args hargs ↦ ?_
    exact .spanFrom fun _ ↦ .pure (has_invoke.2 ⟨hname, hargs⟩)

private theorem objectEntry_gives : Gives ts (fun e ↦ e.Has (Leaf.IsRead ts))
    (objectEntry g pipes) := by
  refine (name_gives _).bind fun key hkey ↦ (symbol?_gives _).bind fun b _ ↦ ?_
  split
  · refine Gives.bind ((hg.value pipes).map (Q := fun x ↦ ∀ e ∈ x, e.Has (Leaf.IsRead ts)) ?_)
      fun value hvalue ↦ .pure ⟨hkey, hvalue⟩
    rintro e he _ ⟨⟩
    exact he
  · exact .pure ⟨hkey, nofun⟩

/-- A value without a pipe is read from tokens. -/
theorem primary_gives : Gives ts (fun e ↦ e.Has (Leaf.IsRead ts)) (primary g pipes) := by
  refine .peek fun c hc ↦ ?_
  split
  · exact Gives.bind (session_gives hg pipes)
      (fun s hs ↦ .pure (has_expr_action.2 (has_session.2 hs))) c hc
  · exact Gives.map (doAction_gives hg pipes) (fun _ ↦ has_expr_action.2) c hc
  · exact Gives.map (string_gives _) (fun _ ↦ has_expr_string.2) c hc
  · next digits hk =>
    refine Gives.take_at hc (by rw [hk]; rfl) fun _ ↦ .pure ?_
    exact has_expr_number.2 (hc.mem_of_kind hk rfl)
  · exact Gives.map (name_gives _) (fun _ ↦ has_expr_ident.2) c hc
  · exact Gives.map (discretion_gives _) (fun _ ↦ has_expr_discretion.2) c hc
  · refine Gives.take (fun _ ↦ ?_) c hc
    refine (commaList_gives _ (hg.value pipes)).bind fun items hitems ↦ ?_
    exact .spanFrom fun _ ↦ .pure (has_expr_array.2 hitems)
  · refine Gives.take (fun _ ↦ ?_) c hc
    refine (commaList_gives _ (objectEntry_gives hg pipes)).bind fun entries hentries ↦ ?_
    exact .spanFrom fun _ ↦ .pure (has_expr_object.2 hentries)
  · exact Gives.unexpected _ c hc

omit hg pipes in
private theorem pipeNames_gives (operator : PipeOperator) :
    Gives ts (fun r ↦ (∀ x ∈ r.1, Leaf.IsRead ts (.name x)) ∧ ∀ x ∈ r.2, Leaf.IsRead ts (.name x))
      (pipeNames operator) := by
  have one {x : Ident} (hx : Leaf.IsRead ts (.name x)) :
      ∀ y ∈ some x, Leaf.IsRead ts (.name y) := by
    rintro _ ⟨⟩
    exact hx
  rw [pipeNames]
  split
  · refine (symbol_gives _).bind fun _ _ ↦ (name_gives _).bind fun accumulator haccumulator ↦ ?_
    refine (symbol_gives _).bind fun _ _ ↦ (name_gives _).bind fun item hitem ↦ ?_
    exact (symbol_gives _).bind fun _ _ ↦ .pure ⟨one hitem, one haccumulator⟩
  · refine (symbol?_gives _).bind fun b _ ↦ ?_
    split
    · refine (name_gives _).bind fun item hitem ↦ ?_
      exact (symbol_gives _).bind fun _ _ ↦ .pure ⟨one hitem, nofun⟩
    · exact .pure ⟨nofun, nofun⟩

private theorem inlineBody_gives : Gives ts (BodyHas (Leaf.IsRead ts)) (inlineBody g) := by
  refine .peek fun c hc ↦ ?_
  split
  · exact Gives.missingBlock _ c hc
  · exact Gives.missingBlock _ c hc
  · exact Gives.missingBlock _ c hc
  · refine (Gives.of_finds (hg.statement false)).bind (fun r hr ↦ ?_) c hc
    rcases r with ⟨read, e | e⟩
    · exact .pure fun s hs ↦ (hr s hs).1
    · exact .throw e

private theorem pipeOperation_gives : Gives ts (fun o ↦ o.Has (Leaf.IsRead ts))
    (pipeOperation g) := by
  refine (expect_gives _ rfl).bind fun first _ ↦ (name_gives _).bind fun name hname ↦ ?_
  split
  · next operator found =>
    refine (pipeNames_gives operator).bind fun names hnames ↦ ?_
    refine (symbol_gives _).bind fun _ _ ↦ .cursor fun c ↦ ?_
    have word : operator.text = name.val := PipeOperator.text_of_ofText? found
    have close {p : Parser (List Statement)} (hp : Gives ts (BodyHas (Leaf.IsRead ts)) p) :
        Gives ts (fun o : Operation ↦ o.Has (Leaf.IsRead ts)) (do
          let body ← p
          return { operator := ⟨operator, name.span⟩, item := names.1, accumulator := names.2, body,
                   span := ← spanFrom first.span }) := by
      refine hp.bind fun body hbody ↦ .spanFrom fun _ ↦ .pure (has_operation.2 ?_)
      refine ⟨⟨?_, hnames.1, hnames.2⟩, hbody⟩
      rw [Leaf.IsRead, word]
      exact hname
    split
    · exact close (indentedBody_gives hg)
    · exact close (inlineBody_gives hg)
  · exact .throw _

/-- A pipe is read from tokens if its input is. -/
theorem pipeTail_gives {input : Expr} (hinput : input.Has (Leaf.IsRead ts)) (first : Span) :
    Gives ts (fun p ↦ (Action.pipe p).Has (Leaf.IsRead ts)) (pipeTail g input first) := by
  refine (manyWhile_gives (atSymbol_gives _) (pipeOperation_gives hg)).bind fun operations h ↦ ?_
  exact .spanFrom fun _ ↦ .pure (has_pipe.2 ⟨hinput, h⟩)

omit hg in
/-- A look for a pipe reads nothing. -/
theorem atPipe_gives : Gives ts (fun _ ↦ True) (atPipe pipes) :=
  (atSymbol_gives _).bind fun _ _ ↦ .pure trivial

/-- A value is read from tokens. -/
theorem value_gives : Gives ts (fun e ↦ e.Has (Leaf.IsRead ts)) (value g pipes) := by
  refine .cursor fun c ↦ (primary_gives hg pipes).bind fun input hinput ↦ ?_
  refine (atPipe_gives pipes).bind fun b _ ↦ ?_
  split
  · exact (pipeTail_gives hg hinput _).bind fun p hp ↦ .pure (has_expr_action.2 hp)
  · exact .pure hinput

end Nested

end Parser

end ProseLang
