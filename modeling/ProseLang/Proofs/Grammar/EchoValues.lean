import ProseLang.Proofs.Grammar.Echo
import ProseLang.Proofs.Grammar.RecastSettings

/-!
# Values and settings that are read alike
-/

namespace ProseLang

variable {k : Likeness} {a : Stage} {g : Nested} {c c' : Cursor}

/-- Whether the parsers of what is nested come to the same from cursors abreast. -/
structure Nested.Echoing (k : Likeness) (g : Nested) : Prop where
  forward : ∀ n, g.Forward n g
  value : ∀ pipes, Echoes k .level .lax (g.value pipes) (g.value pipes)
  statement : ∀ pipes begun, StepEchoes k (.fresh begun) (.loop (.fresh begun) .lax)
    (g.statement pipes) (g.statement pipes)
  properties : ∀ pipes (a : Stage), a.begun = true →
    Echoes k a .lax (g.properties pipes) (g.properties pipes)
  /-- A comment is a statement, or the parser nests nothing. -/
  comment : ∀ pipes (c : Cursor) text, c.current.kind = .comment text →
    g.statement pipes c = (([.comment ⟨text, c.current.span⟩], none), c.advance)
      ∨ ∃ expected, g.statement pipes c =
        (([], some ⟨.unexpected expected c.current.kind.describe, c.current.span⟩), c)

namespace Parser

/-! ## Modifiers -/

private theorem modifierKey?_echoes : Echoes k .level .level modifierKey? modifierKey? := by
  refine .peek rfl (fun x _ ↦ ?_) (fun _ _ _ ↦ .pure_of_covers rfl (Stage.level_facing_covers _))
    (fun _ _ ↦ .pure_of_covers rfl (Stage.level_facing_covers _))
  split
  · next word _ =>
    refine .peekNext rfl rfl nofun fun y y' like ↦ ?_
    have same := like.eq_iff (.symbol .colon) rfl
    have key : Echoes k (Stage.level.facing [.identifier word, .symbol .colon]) .level
        (do let key ← name "a modifier name"; let _ ← take; return some key)
        (do let key ← name "a modifier name"; let _ ← take; return some key) :=
      (name_ahead _ _ _).bind fun key key' hkey ↦
        (Echoes.take_plain [] rfl).bind fun _ _ _ ↦ .pure (congrArg some hkey)
    dsimp only
    by_cases hy : y = .symbol .colon
    · have hy' := same.1 hy
      rw [if_neg (not_not_intro hy), if_neg (not_not_intro hy'), hy]
      exact key
    · rw [if_pos hy, if_pos (mt same.2 hy)]
      apply Echoes.first fun s ↦ (throw ⟨.bareModifier word, s⟩ >>= fun _ ↦
        _ : Parser (Option Ident))
      case ha => rfl
      intro s s' like
      exact Echoes.bind (.throw (congrArg (ParseError.mk (.bareModifier word)) like))
        fun _ _ _ ↦ key
  · exact .pure_of_covers rfl (Stage.level_facing_covers _)

private theorem modifierValue_echoes : Echoes k .level .level modifierValue modifierValue := by
  refine .peek rfl (fun x exact ↦ ?_) (fun l l' _ ↦ ?_) (fun _ _ ↦ .unexpected _)
  · cases x with
    | string | comment => cases exact
    | number digits =>
      exact read_plain [] rfl (fun s ↦ ModifierValue.number ⟨digits, s⟩) fun _ _ like ↦
        congrArg (ModifierValue.number ∘ Located.mk digits) like
    | identifier word =>
      apply Echoes.first fun s ↦ (throw ⟨.bareModifier word, s⟩ : Parser ModifierValue)
      case ha => rfl
      intro s s' like
      exact .throw (congrArg (ParseError.mk (.bareModifier word)) like)
    | _ => exact .unexpected _
  · exact (string_echoes _).map fun _ _ like ↦ congrArg ModifierValue.string like

/-- Nothing but a name, a string or a number starts a modifier. -/
theorem modifier_apply_of_not_valid (h : c.current.kind.isValid = false) :
    modifier c = (.error ⟨.unexpected "a quoted string or a number" c.current.kind.describe,
      c.current.span⟩, c) := by
  have key : modifierKey? c = (.ok none, c) := by
    refine (bind_apply (p := peek) (d := c) rfl).trans ?_
    cases hk : c.current.kind <;> first | rfl | (rw [hk] at h; cases h)
  have value : modifierValue c = (.error ⟨.unexpected "a quoted string or a number"
      c.current.kind.describe, c.current.span⟩, c) := by
    refine (bind_apply (p := peek) (d := c) rfl).trans ?_
    cases hk : c.current.kind <;> rw [hk] at h <;> first | cases h; done | skip
    all_goals
      change unexpected _ c = _
      rw [← hk]
      rfl
  exact (bind_apply (p := cursor) (d := c) rfl).trans
    ((bind_apply key).trans (bind_apply value))

private theorem modifier_echoes : Echoes k .level .level modifier modifier := by
  have passes (first : Span) (c : Cursor) : c.Passes
      ((do let key ← modifierKey?
           let value ← modifierValue
           return { key, value, span := ← spanFrom first } : Parser Modifier) c).2 :=
    Echoes.passes_bind (modifierKey?_echoes (k := k)).passes
      (fun _ ↦ Echoes.passes_bind (modifierValue_echoes (k := k)).passes fun _ c ↦ .refl c) c
  refine ⟨fun c ↦ passes _ c, fun c c' abreast ↦ ?_⟩
  have pair := abreast.current rfl
  cases valid : c.current.kind.isValid with
  | true =>
    refine (Echoes.bind modifierKey?_echoes fun key key' hkey ↦ modifierValue_echoes.bind
      fun value value' hvalue ↦ ?_).echoed c c' abreast
    refine Echoes.close_from rfl pair.span fun s s' hs hs' extents ↦ ?_
    have span := pair.starts valid s s' hs hs' extents
    simp only [Likeness.Like, recast_modifier] at hkey hvalue span ⊢
    rw [hkey, hvalue, span]
  | false =>
    have valid' : c'.current.kind.isValid = false := by rw [← pair.kind.isValid, valid]
    have missed := (Echoes.unexpected (k := k) (a := .level) (b := .level) (α := Modifier)
      "a quoted string or a number").echoed c c' abreast
    have here : modifier c = _ := modifier_apply_of_not_valid valid
    have there : modifier c' = _ := modifier_apply_of_not_valid valid'
    change Echoed k _ (modifier c) (modifier c')
    rw [here, there]
    exact missed

private theorem modifiers_echoes : Echoes k .level .level modifiers modifiers :=
  (symbol_echoes .leftParen).bind fun _ _ _ ↦
    commaList_echoes .rightParen (fun _ ↦ modifier_forward)
    (modifier_echoes.weaken (.refl _) Stage.level_covers_lax id)

/-- Modifiers come to the same. -/
theorem modifiers?_echoes : Echoes k .level .level modifiers? modifiers? := by
  refine (at?_echoes (.symbol .leftParen) rfl rfl).bind fun opens opens' same ↦ ?_
  obtain rfl : opens = opens' := same
  cases opens with
  | true => exact modifiers_echoes
  | false => exact .pure rfl

/-! ## Properties -/

private theorem contextNames_echoes (x : TokenKind) (hx : x.isPlain = true) (close : Punctuation)
    {make : List Ident → Context} (hmake : ∀ r names, recast r (make names)
      = make (recast r names)) :
    Echoes k (a.facing [x]) .level (contextNames close make) (contextNames close make) := by
  refine (Echoes.take_plain [] hx).bind fun _ _ _ ↦ ?_
  refine (commaList_echoes close (fun _ ↦ name_forward _)
    ((name_echoes _).weaken (.refl _) Stage.level_covers_lax id)).bind fun names names' like ↦
      .pure ?_
  have empty : names.isEmpty = names'.isEmpty := by
    have same := congrArg List.isEmpty like
    rwa [isEmpty_recast, isEmpty_recast] at same
  rw [← empty]
  split
  · rfl
  · rw [Likeness.Like, hmake, hmake, like]

private theorem context_echoes (ha : a.ready = true) : Echoes k a .level context context := by
  refine .peek ha (fun x exact ↦ ?_) (fun _ _ _ ↦ .unexpected _) (fun _ _ ↦ .unexpected _)
  split
  · exact ((name_echoes _).map fun _ _ like ↦ congrArg Context.single like)
  · exact contextNames_echoes _ rfl _ fun _ _ ↦ rfl
  · exact contextNames_echoes _ rfl _ fun _ _ ↦ rfl
  · exact .unexpected _

private theorem propertyKey_echoes (ha : a.ready = true) :
    Echoes k a .level propertyKey propertyKey := by
  refine .peek ha (fun x _ ↦ ?_) (fun _ _ _ ↦ name_echoes _) (fun _ _ ↦ name_echoes _)
  cases x with
  | keyword word =>
    refine .peekNext ha rfl nofun fun y y' like ↦ ?_
    have same := like.eq_iff (.symbol .colon) rfl
    by_cases hy : y = .symbol .colon
    · rw [if_pos hy, if_pos (same.1 hy)]
      exact (read_plain [y] rfl (Located.mk word.text) fun _ _ like ↦ congrArg _ like).weaken
        (.refl _)
        (Stage.level_facing_covers _) id
    · rw [if_neg hy, if_neg (mt same.2 hy)]
      exact name_echoes _
  | _ => exact name_echoes _

private theorem isValid_of_name {role : String} {x : Ident} {d : Cursor}
    (h : name role c = (.ok x, d)) : c.current.kind.isValid = true := by
  obtain ⟨kind, u, here, rest⟩ := bind_eq_ok h
  cases here
  cases hk : c.current.kind <;> rw [hk] at rest <;> first | rfl | cases rest

/-- A key is a token within a line. -/
theorem propertyKey_eq_ok {key : Ident} {d : Cursor} (h : propertyKey c = (.ok key, d)) :
    key.span = c.current.span ∧ c.current.kind.isValid = true := by
  obtain ⟨kind, u, here, rest⟩ := bind_eq_ok h
  cases here
  cases hk : c.current.kind with
  | keyword word =>
    rw [hk] at rest
    obtain ⟨next, u, here, rest⟩ := bind_eq_ok rest
    cases here
    split at rest
    · cases rest
      exact ⟨rfl, rfl⟩
    · exact ⟨name_eq_ok rest, rfl⟩
  | _ =>
    rw [hk] at rest
    exact ⟨name_eq_ok rest, hk ▸ isValid_of_name rest⟩

private theorem property_echoes (hg : g.Echoing k) (pipes : Bool) (ha : a.ready = true) :
    Echoes k a .lax (property g pipes) (property g pipes) := by
  let close (key : Ident) (value : PropertyValue) : Parser Property := do
    return { key, value, span := ← spanFrom key.span }
  let rest (key : Ident) : Parser Property := do
    symbol .colon
    let value : PropertyValue ←
      if key.val = "context" then .context <$> context
      else if (← cursor).atBlock then .nested <$> g.properties pipes else .expr <$> g.value pipes
    close key value
  have written : Echoes k .level .lax (PropertyValue.context <$> context) (.context <$> context) :=
    ((context_echoes rfl).weaken (.refl _) Stage.level_covers_lax id).map fun _ _ like ↦
      congrArg PropertyValue.context like
  have nested : Echoes k (Stage.level.facing [.newline, .indent]) .lax
      (PropertyValue.nested <$> g.properties pipes) (.nested <$> g.properties pipes) :=
    (hg.properties pipes _ rfl).map fun _ _ like ↦ by
      rw [Likeness.Like, recast_property_nested, recast_property_nested, like]
  have value : Echoes k .level .lax (PropertyValue.expr <$> g.value pipes)
    (.expr <$> g.value pipes) :=
    (hg.value pipes).map fun _ _ like ↦ congrArg PropertyValue.expr like
  have closes (key : Ident) (value : PropertyValue) (c : Cursor) : c.Passes (close key value c).2 :=
    .refl c
  have passes (key : Ident) (c : Cursor) : c.Passes (rest key c).2 := by
    refine Echoes.passes_bind (symbol_echoes (k := k) (a := a) .colon).passes (fun _ c ↦ ?_) c
    change c.Passes ((if key.val = "context" then .context <$> context >>= close key
      else if c.atBlock then .nested <$> g.properties pipes >>= close key
      else .expr <$> g.value pipes >>= close key : Parser Property) c).2
    split
    · exact Echoes.passes_bind written.passes (closes key) c
    · split
      · exact Echoes.passes_bind nested.passes (closes key) c
      · exact Echoes.passes_bind value.passes (closes key) c
  refine Echoes.bind_known (R := fun key key' ↦ k.Starts key.span key'.span)
    (propertyKey_echoes ha) ?_ passes fun key key' hkey starts ↦ ?_
  · intro c c' key key' u u' abreast here there _
    obtain ⟨span, valid⟩ := propertyKey_eq_ok here
    obtain ⟨span', -⟩ := propertyKey_eq_ok there
    rw [span, span']
    exact (abreast.current ha).starts valid
  · have same : key.val = key'.val := Likeness.Like.val hkey
    have ends {v v' : PropertyValue} (like : k.Like v v') :
        Echoes k .lax .lax (close key v) (close key' v') := by
      refine .close_from rfl (congrArg Located.span hkey) fun s s' hs hs' extents ↦ ?_
      have span := starts s s' hs hs' extents
      simp only [Likeness.Like, recast_property] at hkey like span ⊢
      rw [hkey, like, span]
    refine (symbol_echoes .colon).bind fun _ _ _ ↦ ?_
    by_cases context : key.val = "context"
    · have context' : key'.val = "context" := same ▸ context
      simp only [context, context', if_true]
      exact written.bind fun _ _ ↦ ends
    · have context' : key'.val ≠ "context" := same ▸ context
      simp only [context, context', if_false]
      exact .atBlock (nested.bind fun _ _ ↦ ends) (value.bind fun _ _ ↦ ends)

/-- A property in a block of them, with the end of its line. -/
def propertyOfBlock (g : Nested) (pipes : Bool) : StateM Cursor (List Property × RoundEnd) := do
  match ← recovering (property g pipes) with
  | some p =>
    let _ ← recovering endStatement
    return ([p], .again)
  | none => return ([], .again)

/-- What a block of properties goes on with at a token. -/
def propertyTurn (g : Nested) (pipes : Bool) (x : TokenKind) :
    StateM Cursor (List Property × RoundEnd) :=
  match x with
  | .dedent | .endOfFile => return ([], .stop)
  | _ => propertyOfBlock g pipes

private theorem propertyRound_echoes (hg : g.Echoing k) (pipes : Bool) :
    StepEchoes k (.loose true) (.round (.loose true) (.loose true)) (propertyRound g pipes)
      (propertyRound g pipes) := by
  have reads (x : TokenKind) : StepEchoes k ((Stage.fresh true).facing [x])
      (.round (.loose true) (.loose true)) (propertyOfBlock g pipes) (propertyOfBlock g pipes) := by
    refine StepEchoes.bind (recovering_echoes (property_echoes hg pipes rfl)) (fun p p' like ↦ ?_)
      (by rintro _ _ ⟨⟩)
    cases p with
    | none =>
      cases p' with
      | none => exact .pure rfl (.refl _)
      | some p' => cases like
    | some p =>
      cases p' with
      | none => cases like
      | some p' =>
        have read : k.Like [p] [p'] := congrArg ([·]) (Option.some.inj like)
        refine StepEchoes.bind (recovering_echoes endStatement_echoes) (fun x x' _ ↦ ?_)
          (by rintro _ _ ⟨⟩)
        refine .pure (congrArg (·, RoundEnd.again) read) ?_
        cases x <;> exact Stage.covers_loose_of_begun rfl true
  refine .move Cursor.Passes.skipBlanks (fun c c' abreast ↦ abreast.skipNewlines.skipComments)
    (.current (propertyTurn g pipes) (propertyTurn g pipes) rfl (fun x _ ↦ ?_)
      (fun l _ _ ↦ reads (.string l)) fun t _ ↦ reads (.comment t))
  cases x with
  | dedent | endOfFile => exact .pure rfl (Stage.covers_loose_of_begun rfl true)
  | _ => exact reads _

private theorem propertyRound_never_fails (g : Nested) (pipes : Bool) :
    NeverFails (propertyRound g pipes) := by
  refine .bind fun _ ↦ .bind fun c ↦ ?_
  split
  · exact .pure nofun
  · exact .pure nofun
  · refine .bind fun p ↦ ?_
    split
    · exact .bind fun _ ↦ .pure nofun
    · exact .pure nofun

/-- A block of properties comes to the same. -/
theorem propertyBlock_echoes (hg : g.Echoing k) (pipes : Bool) (ha : a.begun = true) :
    Echoes k a .lax (propertyBlock g pipes) (propertyBlock g pipes) := by
  have advances : Advances (propertyRound g pipes) := fun n ↦
    (propertyRound_moves (hg.forward n) pipes).mono (Nat.le_succ n)
  have loop := rounds_echoes recast_append advances (propertyRound_echoes hg pipes)
  refine (expect_break .newline rfl nofun ha).bind fun _ _ _ ↦ ?_
  refine (expect_break .indent rfl nofun rfl).bind fun _ _ _ ↦ ?_
  refine Echoes.bind (b := .loose true)
    ((Echoes.gather (propertyRound_never_fails g pipes).gathers loop).weaken
      (Stage.covers_loose_of_begun rfl true) (.refl _) id) fun _ _ like ↦ ?_
  exact (expect_break .dedent rfl nofun rfl).bind fun _ _ _ ↦ .pure like

private theorem inlineProperties_echoes (hg : g.Echoing k) (pipes : Bool) :
    Echoes k a .level (inlineProperties g pipes) (inlineProperties g pipes) :=
  (symbol_echoes .leftBrace).bind fun _ _ _ ↦
    commaList_echoes .rightBrace (fun n ↦ (property_forward (hg.forward n) pipes).fewer)
      (property_echoes hg pipes rfl)

/-! ## Sessions and agents -/

section Optional

variable {β : Type} [Recastable β] {b : Stage} {role : String}

/-- A name that may be there or not. -/
theorem name_optional_echoes {f f' : Option Ident → Parser β}
    (hf : ∀ x x', k.Like x x' → Echoes k .level b (f x) (f' x')) :
    Echoes k .level b (do match ← peek with
        | .identifier _ => some <$> name role >>= f
        | _ => pure none >>= f)
      (do match ← peek with
        | .identifier _ => some <$> name role >>= f'
        | _ => pure none >>= f') := by
  have absent (x : TokenKind) : Echoes k (Stage.level.facing [x]) b (pure none >>= f)
      (pure none >>= f') :=
    (Echoes.pure_of_covers rfl (Stage.level_facing_covers _)).bind hf
  refine .peek rfl (fun x _ ↦ ?_) (fun l _ _ ↦ absent (.string l)) fun t _ ↦ absent (.comment t)
  cases x with
  | identifier =>
    exact ((name_echoes _).map fun _ _ like ↦ congrArg some like).bind hf
  | _ => exact absent _

/-- A string that may be there or not. -/
theorem string_optional_echoes {f f' : Option StringLit → Parser β}
    (hf : ∀ x x', k.Like x x' → Echoes k .level b (f x) (f' x')) :
    Echoes k .level b (do match ← peek with
        | .string _ => some <$> string role >>= f
        | _ => pure none >>= f)
      (do match ← peek with
        | .string _ => some <$> string role >>= f'
        | _ => pure none >>= f') := by
  have absent (x : TokenKind) : Echoes k (Stage.level.facing [x]) b (pure none >>= f)
      (pure none >>= f') :=
    (Echoes.pure_of_covers rfl (Stage.level_facing_covers _)).bind hf
  refine .peek rfl (fun x exact ↦ ?_) (fun _ _ _ ↦ ?_) fun t _ ↦ absent (.comment t)
  · cases x with
    | string | comment => cases exact
    | _ => exact absent _
  · exact ((string_echoes _).map fun _ _ like ↦ congrArg some like).bind hf

end Optional

/-- Properties are set on sessions that are alike. -/
theorem withProperties_echoes {s s' : Session} (hs : k.Like s s') {p : Parser (List Property)}
    (h : Echoes k a .lax p p) :
    Echoes k a .lax (do s.withProperties (← p)) (do s'.withProperties (← p)) :=
  h.bind fun ps ps' hps ↦ .lift (by
    rw [Likeness.Like, ← SessionOf.withProperties_recast, ← SessionOf.withProperties_recast,
      hs, hps])

private theorem sessionDetails_echoes (hg : g.Echoing k) (pipes : Bool) {s s' : Session}
    (hs : k.Like s s') :
    Echoes k .level .lax (sessionDetails g pipes s) (sessionDetails g pipes s') := by
  have block {a : Stage} (ha : a.begun = true) {s s' : Session} (hs : k.Like s s') :
      Echoes k a .lax (do s.withProperties (← propertyBlock g pipes))
        (do s'.withProperties (← propertyBlock g pipes)) :=
    withProperties_echoes hs (propertyBlock_echoes hg pipes ha)
  have bare (x : TokenKind) : Echoes k (Stage.level.facing [x]) .lax
      (do if (← cursor).atBlock then s.withProperties (← propertyBlock g pipes)
          else missingBlock .session)
      (do if (← cursor).atBlock then s'.withProperties (← propertyBlock g pipes)
          else missingBlock .session) :=
    .atBlock (block rfl hs) (.missingBlock _ rfl)
  refine .peek rfl (fun x _ ↦ ?_) (fun l _ _ ↦ bare (.string l)) fun t _ ↦ bare (.comment t)
  split
  · refine (name_echoes _).bind fun agent agent' like ↦ ?_
    have named : k.Like { s with agent := some agent } { s' with agent := some agent' } := by
      simp only [Likeness.Like, recast_sessionOf, recast_some] at hs like ⊢
      obtain ⟨⟩ := s
      obtain ⟨⟩ := s'
      simp only [recast_sessionOf, SessionOf.mk.injEq] at hs ⊢
      simp [hs, like]
    exact .atBlock (block rfl named) (.pure_of_covers named Stage.level_covers_lax)
  · exact withProperties_echoes hs
      ((inlineProperties_echoes hg pipes).weaken (.refl _) Stage.level_covers_lax id)
  · exact bare x

/-- A session comes to the same. -/
theorem session_echoes (hg : g.Echoing k) (pipes : Bool) :
    Echoes k a .lax (session g pipes) (session g pipes) := by
  refine (keyword_echoes .session).bind fun first first' hfirst ↦ ?_
  refine name_optional_echoes fun name name' hname ↦ ?_
  refine string_optional_echoes fun prompt prompt' hprompt ↦ ?_
  refine modifiers?_echoes.bind fun ms ms' hms ↦ ?_
  have empty : k.Like ({ name, prompt } : Session) { name := name', prompt := prompt' } := by
    simp only [Likeness.Like, recast_sessionOf] at hname hprompt ⊢
    rw [hname, hprompt, k.extent_nowhere]
    rfl
  refine Echoes.bind (.lift (a := .level) ?_) fun s s' hs ↦ ?_
  · rw [Likeness.Like, ← SessionOf.withModifiers_recast, ← SessionOf.withModifiers_recast,
      empty, hms]
  have ends {s s' : Session} (hs : k.Like s s') : Echoes k .lax .lax
      (do return { s with span := ← spanFrom first })
        (do return { s' with span := ← spanFrom first' }) := by
    refine .close rfl hfirst fun span span' extents ↦ ?_
    obtain ⟨⟩ := s
    obtain ⟨⟩ := s'
    simp only [Likeness.Like, recast_sessionOf, SessionOf.mk.injEq] at hs ⊢
    simp [hs, extents]
  refine (symbol?_echoes .colon).bind fun opens opens' same ↦ ?_
  obtain rfl : opens = opens' := same
  cases opens with
  | true => exact (sessionDetails_echoes hg pipes hs).bind fun _ _ ↦ ends
  | false => exact Echoes.bind (.pure_of_covers hs Stage.level_covers_lax) fun _ _ ↦ ends

/-- The definition of an agent comes to the same. -/
theorem agent_echoes (hg : g.Echoing k) (pipes : Bool) :
    Echoes k a .lax (agent g pipes) (agent g pipes) := by
  refine (keyword_echoes .agent).bind fun first first' hfirst ↦ ?_
  refine (name_echoes _).bind fun name name' hname ↦ (symbol_echoes .colon).bind fun _ _ _ ↦ ?_
  refine .needsBlock .agentDefinition rfl ?_
  refine (propertyBlock_echoes hg pipes rfl).bind fun ps ps' hps ↦ ?_
  refine Echoes.bind (.lift (a := .lax) ?_) fun a a' ha ↦ .close rfl hfirst fun s s' extents ↦ ?_
  · rw [Likeness.Like, ← AgentOf.withProperties_recast, ← AgentOf.withProperties_recast, hps]
    simp only [Likeness.Like, recast_agentOf] at hname ⊢
    rw [hname, k.extent_of_place hfirst]
    rfl
  · obtain ⟨⟩ := a
    obtain ⟨⟩ := a'
    simp only [Likeness.Like, recast_agentOf, AgentOf.mk.injEq] at ha ⊢
    simp [ha, extents]

/-! ## Bodies -/

/-- What a round does after a statement: it records that it failed, or looks for its end. -/
def settleStatement (x : List Statement × Option ParseError) :
    StateM Cursor (List Statement × RoundEnd) :=
  match x.2 with
  | some e => do
    modify (·.recover e)
    return (x.1, .again)
  | none => do
    let _ ← recovering endStatement
    return (x.1, .again)

/-- What follows a statement that is read or fails. -/
theorem afterStatement_echoed {begun : Bool} {r r' : (List Statement × Option ParseError) × Cursor}
    (h : Echoed k (.loop (.fresh begun) .lax) r r') (hr : r.2.rejected = k.rejected) :
    Echoed k (.round (.loose begun) (.loose begun))
      ((r.1.1, RoundEnd.again), afterStatement r.1.2 r.2)
      ((r'.1.1, RoundEnd.again), afterStatement r'.1.2 r'.2) := by
  have steps (x x' : List Statement × Option ParseError) (like : k.Like x x') :
      StepEchoes k ((Outcome.loop (.fresh begun) .lax).stage x)
        (.round (.loose begun) (.loose begun))
        (settleStatement x) (settleStatement x') := by
    rcases x with ⟨read, e⟩
    rcases x' with ⟨read', e'⟩
    obtain ⟨hread, he⟩ := Prod.mk.inj like
    replace hread : k.Like read read' := hread
    have done : k.Like (read, RoundEnd.again) (read', .again) := congrArg (·, RoundEnd.again) hread
    rcases e with _ | e <;> rcases e' with _ | e'
    · refine StepEchoes.bind (recovering_echoes endStatement_echoes) (fun x _ _ ↦ ?_)
        (by rintro _ _ ⟨⟩)
      refine .pure done ?_
      cases x <;> exact Stage.covers_loose_of_begun rfl begun
    · cases he
    · cases he
    · have error : k.Like e e' := Option.some.inj he
      have left : StepEchoes k (.loose begun) (.round (.loose begun) (.loose begun))
          (pure (read, .again)) (pure (read', .again)) := .pure done (.refl _)
      exact ⟨fun c ↦ .recover c e, fun c c' abreast ↦ left.echoed _ _ (abreast.recover error)⟩
  have runs (r : (List Statement × Option ParseError) × Cursor) :
      settleStatement r.1 r.2 = ((r.1.1, RoundEnd.again), afterStatement r.1.2 r.2) := by
    rcases r with ⟨⟨read, _ | e⟩, d⟩ <;> rfl
  rw [← runs, ← runs]
  refine h.bind hr steps fun x e failed harms c hc ↦ ?_
  rcases x with ⟨read, _ | e'⟩ <;> cases failed
  exact ⟨e, .inl (harms.mem_recover hc), harms⟩

private theorem skipNewlines_skipNewlines (c : Cursor) :
    c.skipNewlines.skipNewlines = c.skipNewlines := by
  have left : c.skipNewlines.rest = c.rest.dropWhile (·.kind = .newline) := by
    have skipped := List.prefix_iff_eq_append.1
      (List.takeWhile_prefix (l := c.rest) (·.kind = .newline))
    rw [Cursor.skipNewlines, Cursor.rest_skip]
    exact List.append_cancel_left (skipped.trans List.takeWhile_append_dropWhile.symm)
  refine skipNewlines_of_head fun t ht ↦ ?_
  have head := List.head?_dropWhile_not (·.kind = .newline) c.rest
  rw [left, Option.mem_def] at ht
  simpa [ht] using head

/-- A round reads the same statements on both sides, or a comment that is left out on the right. -/
theorem statementRound_echoed (hg : g.Echoing k) (pipes inBlock : Bool) {begun : Bool}
    (abreast : Abreast k (.loose begun) c c') :
    Echoed k (.round (.loose begun) (.loose begun)) (statementRound (g.statement pipes) inBlock c)
        (statementRound (g.statement pipes) inBlock c')
      ∨ ∃ xs d, statementRound (g.statement pipes) inBlock c = ((xs, .again), d) ∧ k.Like xs []
        ∧ Abreast k (.loose begun) d c'.skipNewlines := by
  have next := abreast.skipNewlines
  rw [statementRound_apply, statementRound_apply]
  generalize c.skipNewlines = d at next ⊢
  generalize c'.skipNewlines = d' at next ⊢
  have rejected := (hg.statement pipes begun).passes d
  rcases next.current_cases with ⟨hnext, pair⟩ | ⟨t, ts, hd, omitted⟩
  · have fresh : Abreast k (.fresh begun) d d' := { next with ready := fun _ ↦ hnext }
    have read := afterStatement_echoed ((hg.statement pipes begun).echoed d d' fresh)
      (rejected.rejected.trans next.rejected)
    left
    rcases pair.kind.cases with same | ⟨l, l', hl, hl', -⟩ | ⟨text, text', hl, hl'⟩
    · rw [← same]
      split
      · exact .inr ⟨rfl, next⟩
      · next hk =>
        split
        · exact .inr ⟨rfl, next⟩
        · refine .inr ⟨rfl, ?_⟩
          exact (next.advance hnext (next.ne_nil (by rw [hk]; nofun))).mono
            (Stage.past_covers_loose _ _)
      · exact .inr ⟨rfl, next.recover (congrArg (ParseError.mk .unexpectedIndent) pair.span)⟩
      · exact read
    · rw [hl, hl']
      exact read
    · rw [hl, hl']
      exact read
  · have comment := (Bool.and_eq_true_iff.1 omitted)
    have current : d.current = t := Cursor.current_of_cons hd
    cases hk : t.kind with
    | comment text =>
      rw [current, hk]
      dsimp only
      rcases hg.comment pipes d text (by rw [current, hk]) with run | ⟨expected, run⟩
      · refine .inr ⟨_, _, rfl, ?_, ?_⟩
        · rw [run, Likeness.Like, recast_comment, (k.comment_eq_none _).2 comment.1]
          rfl
        · have ended : d.advance.previous.any TokenKind.endsStatement = true := by
            rw [Cursor.advance, hd]
            simp [hk, TokenKind.endsStatement]
          rw [run]
          have stays : (recovering endStatement d.advance).2 = d.advance := by
            rw [recovering_ok (endStatement_apply_of_ended ended)]
          rw [afterStatement, stays]
          exact next.pass hd omitted
      · rw [run]
        have harms := next.harms hd omitted expected
        exact .inl (.inl ⟨_, .inl (harms.mem_recover next.rejected), harms⟩)
    | _ =>
      rw [hk] at comment
      cases comment.2

private theorem statementRound_skipNewlines (statement : StatementParser) (inBlock : Bool)
    (c : Cursor) :
    statementRound statement inBlock c.skipNewlines = statementRound statement inBlock c := by
  rw [statementRound_apply, statementRound_apply, skipNewlines_skipNewlines]

private theorem statementRound_advances (hg : g.Echoing k) (pipes inBlock : Bool) :
    Advances (statementRound (g.statement pipes) inBlock) := fun n ↦
  statementRound_moves inBlock ((hg.forward n).statement pipes)

/-- Ends of lines before statements make no difference. -/
theorem rounds_skipNewlines (hg : g.Echoing k) (pipes inBlock : Bool)
    (hfinal : c.final.kind = .endOfFile) :
    rounds (statementRound (g.statement pipes) inBlock) c.skipNewlines
      = rounds (statementRound (g.statement pipes) inBlock) c := by
  have same := statementRound_skipNewlines (g.statement pipes) inBlock c
  have final : c.skipNewlines.final = c.final := (Cursor.Passes.skip c _).final
  rcases run : statementRound (g.statement pipes) inBlock c with ⟨⟨read, _ | _ | e⟩, d⟩
  · have advances := statementRound_advances hg pipes inBlock
    rw [rounds_again run (advances.shorter hfinal run), rounds_again (same.trans run)
      (advances.shorter (final ▸ hfinal) (same.trans run))]
  · rw [rounds_stop run, rounds_stop (same.trans run)]
  · rw [rounds_fail run, rounds_fail (same.trans run)]

/-- Statements come to the same, and comments that are left out on the right come to nothing. -/
theorem statements_echoes (hg : g.Echoing k) (pipes inBlock begun : Bool) :
    StepEchoes k (.loose begun) (.loop (.loose begun) (.loose begun))
      (rounds (statementRound (g.statement pipes) inBlock))
      (rounds (statementRound (g.statement pipes) inBlock)) := by
  have passes (c : Cursor) : c.Passes (statementRound (g.statement pipes) inBlock c).2 := by
    have skips : c.Passes c.skipNewlines := .skip c _
    have read := (hg.statement pipes begun).passes c.skipNewlines
    rw [statementRound_apply]
    split
    · exact skips
    · split
      · exact skips
      · exact skips.trans (.advance _)
    · exact skips.trans (.recover _ _)
    · dsimp only
      cases (g.statement pipes c.skipNewlines).1.2 with
      | some e => exact skips.trans (read.trans (.recover _ e))
      | none =>
        exact skips.trans (read.trans ((recovering_echoes (k := k) endStatement_echoes).passes _))
  refine ⟨rounds_passes passes, fun c c' abreast ↦ ?_⟩
  refine (rounds_echoed (s := fun _ ↦ False) recast_append
    (statementRound_advances hg pipes inBlock) passes (fun c c' abreast ↦ ?_) c c'
    abreast).resolve_right fun h ↦ h.2
  refine (statementRound_echoed hg pipes inBlock abreast).imp_right
    fun ⟨xs, d, run, nothing, next⟩ ↦ ?_
  exact .inl ⟨xs, d, c'.skipNewlines, run, nothing,
    (rounds_skipNewlines hg pipes inBlock abreast.final_kind').symm, next⟩

private theorem indentedBody_echoes (hg : g.Echoing k) (ha : a.begun = true) :
    Echoes k (a.facing [.newline, .indent]) .lax (indentedBody g) (indentedBody g) := by
  have never : NeverFails (statementRound (g.statement true) true) := statementRound_ne_fail _ true
  have body : Echoes k (.loose true) (.loose true)
      (monadLift (statements (g.statement true) true) : Parser (List Statement))
      (monadLift (statements (g.statement true) true)) :=
    Echoes.gather never.gathers (statements_echoes hg true true true)
  exact .openBlock ha (body.bind fun _ _ like ↦
    (expect_break .dedent rfl nofun rfl).bind fun _ _ _ ↦ .pure like)

private theorem blockBody_echoes (hg : g.Echoing k) (construct : Construct) :
    Echoes k .level .lax (blockBody g construct) (blockBody g construct) :=
  .atBlock (indentedBody_echoes hg rfl) (.missingBlock construct rfl)

/-- The body of a block comes to the same, or is missing on both sides. -/
theorem blockBody?_echoes (hg : g.Echoing k) :
    Echoes k .level .lax (blockBody? g) (blockBody? g) :=
  .atBlock (indentedBody_echoes hg rfl) (.pure_of_covers rfl Stage.level_covers_lax)

/-- A block comes to the same. -/
theorem block_echoes (hg : g.Echoing k) (construct : Construct) :
    Echoes k a .lax (block g construct) (block g construct) :=
  (symbol_echoes .colon).bind fun _ _ _ ↦ blockBody_echoes hg construct

/-! ## Values -/

/-- A `do` comes to the same. -/
theorem doAction_echoes (hg : g.Echoing k) (pipes : Bool) :
    Echoes k a .lax (doAction g pipes) (doAction g pipes) := by
  refine (keyword_echoes .do_).bind fun first first' hfirst ↦ ?_
  refine (at?_echoes (.symbol .colon) rfl rfl).bind fun opens opens' same ↦ ?_
  obtain rfl : opens = opens' := same
  cases opens with
  | true =>
    refine (block_echoes hg .doBlock).bind fun body body' hbody ↦
      .close rfl hfirst fun s s' extents ↦ ?_
    simp only [Likeness.Like, recast_doBlock, recast_bodyOf] at hbody ⊢
    rw [hbody, extents]
  | false =>
    refine (name_echoes _).bind fun name name' hname ↦ ?_
    refine (parenthesized?_echoes (fun n ↦ (hg.forward n).value pipes) (hg.value pipes)).bind
      fun args args' hargs ↦ ?_
    refine (Echoes.close rfl hfirst fun s s' extents ↦ ?_).weaken Stage.level_covers_lax
      (.refl _) id
    simp only [Likeness.Like, recast_invoke, recast_invocationOf] at hname hargs ⊢
    rw [hname, hargs, extents]

private theorem objectEntry_echoes (hg : g.Echoing k) (pipes : Bool) :
    Echoes k .level .lax (objectEntry g pipes) (objectEntry g pipes) := by
  refine (name_echoes _).bind fun key key' hkey ↦ ?_
  have ends {value value' : Option Expr} (hvalue : k.Like value value') :
      Echoes k .lax .lax (return (⟨key, value⟩ : Entry)) (return ⟨key', value'⟩) := by
    refine .pure ?_
    simp only [Likeness.Like, recast_entryOf] at hkey hvalue ⊢
    rw [hkey, hvalue]
  refine (symbol?_echoes .colon).bind fun opens opens' same ↦ ?_
  obtain rfl : opens = opens' := same
  cases opens with
  | true =>
    exact ((hg.value pipes).map fun _ _ like ↦ congrArg some like).bind fun _ _ ↦ ends
  | false => exact Echoes.bind (.pure_of_covers rfl Stage.level_covers_lax) fun _ _ ↦ ends

/-- A value without a pipe comes to the same. -/
theorem primary_echoes (hg : g.Echoing k) (pipes : Bool) (ha : a.ready = true) :
    Echoes k a .lax (primary g pipes) (primary g pipes) := by
  have read {a : Stage} {α : Type} [Recastable α] {p : Parser α} (h : Echoes k a .level p p)
    (f : α → Expr)
      (hf : ∀ x x', k.Like x x' → k.Like (f x) (f x')) : Echoes k a .lax (f <$> p) (f <$> p) :=
    (h.weaken (.refl _) Stage.level_covers_lax id).map hf
  refine .peek ha (fun x exact ↦ ?_) (fun l _ _ ↦ ?_) (fun _ _ ↦ .unexpected _)
  · split
    · exact (session_echoes hg pipes).bind fun _ _ like ↦ .pure (by
        simp only [Likeness.Like, recast_expr_action, recast_session] at like ⊢
        rw [like])
    · exact (doAction_echoes hg pipes).map fun _ _ like ↦ congrArg Expr.action like
    · cases exact
    · next digits =>
      exact (read_plain [] rfl (fun s ↦ Expr.number ⟨digits, s⟩) fun _ _ like ↦
        congrArg (Expr.number ∘ Located.mk digits) like).weaken (.refl _) Stage.level_covers_lax id
    · exact read (name_echoes _) _ fun _ _ like ↦ congrArg Expr.ident like
    · exact read (discretion_echoes _) _ fun _ _ like ↦ congrArg Expr.discretion like
    · refine (Echoes.take_plain [] rfl).bind fun t t' hfirst ↦ ?_
      refine (commaList_echoes .rightBracket (fun n ↦ (hg.forward n).value pipes)
        (hg.value pipes)).bind
        fun items items' hitems ↦ ?_
      refine (Echoes.close rfl (congrArg Token.span hfirst) fun s s' extents ↦ ?_).weaken
        Stage.level_covers_lax (.refl _) id
      simp only [Likeness.Like, recast_expr_array, recast_arrayOf] at hitems ⊢
      rw [hitems, extents]
    · refine (Echoes.take_plain [] rfl).bind fun t t' hfirst ↦ ?_
      refine (commaList_echoes .rightBrace (fun n ↦ objectEntry_forward (hg.forward n) pipes)
        (objectEntry_echoes hg pipes)).bind fun entries entries' hentries ↦ ?_
      refine (Echoes.close rfl (congrArg Token.span hfirst) fun s s' extents ↦ ?_).weaken
        Stage.level_covers_lax (.refl _) id
      simp only [Likeness.Like, recast_expr_object, recast_objectOf] at hentries ⊢
      rw [hentries, extents]
    · exact .unexpected _
  · exact read (string_echoes _) _ fun _ _ like ↦ congrArg Expr.string like

private theorem pipeNames_echoes (operator : PipeOperator) :
    Echoes k .level .level (pipeNames operator) (pipeNames operator) := by
  rw [pipeNames]
  split
  · refine (symbol_echoes _).bind fun _ _ _ ↦
      (name_echoes _).bind fun accumulator accumulator' ha ↦ ?_
    refine (symbol_echoes _).bind fun _ _ _ ↦ (name_echoes _).bind fun item item' hi ↦ ?_
    exact (symbol_echoes _).bind fun _ _ _ ↦
      .pure (congrArg₂ (fun i a ↦ (some i, some a)) hi ha)
  · refine (symbol?_echoes _).bind fun opens opens' same ↦ ?_
    obtain rfl : opens = opens' := same
    cases opens with
    | true =>
      refine (name_echoes _).bind fun item item' hi ↦ (symbol_echoes _).bind fun _ _ _ ↦ ?_
      exact .pure (congrArg (fun i ↦ (some i, none)) hi)
    | false => exact .pure rfl

/-- What a statement comes to for a body that consists of it. -/
def inlineResult : List Statement × Option ParseError → Parser (List Statement)
  | (read, none) => return read
  | (_, some e) => throw e

private theorem inlineBody_echoes (hg : g.Echoing k) :
    Echoes k .level .lax (inlineBody g) (inlineBody g) := by
  let read : Parser (List Statement) := do inlineResult (← g.statement false)
  have run : read = fun c ↦ manyResult (g.statement false c) := by
    funext c
    change inlineResult (g.statement false c).1 (g.statement false c).2 = _
    rcases g.statement false c with ⟨⟨read, _ | e⟩, d⟩ <;> rfl
  have reads (x : TokenKind) : Echoes k (Stage.level.facing [x]) .lax read read := by
    rw [run]
    have statement := hg.statement false true
    exact ⟨fun c ↦ passes_manyResult (statement.passes c), fun c c' abreast ↦
      (Echoed.manyResult (a := .fresh true) (statement.echoed c c'
        (abreast.mono ⟨id, (absurd · Bool.false_ne_true), id, List.nil_prefix⟩)))⟩
  refine .peek rfl (fun x _ ↦ ?_) (fun l _ _ ↦ reads (.string l)) fun t _ ↦ reads (.comment t)
  split
  · exact .missingBlock _ rfl
  · exact .missingBlock _ rfl
  · exact .missingBlock _ rfl
  · exact reads x

private theorem pipeOperation_echoes (hg : g.Echoing k) :
    Echoes k .lax .lax (pipeOperation g) (pipeOperation g) := by
  refine (expect_plain (.symbol .pipe) rfl rfl).bind fun first first' hfirst ↦ ?_
  refine (name_echoes _).bind fun name name' hname ↦ ?_
  have same : name.val = name'.val := hname.val
  have place : k.Like name.span name'.span := congrArg Located.span hname
  rw [← same]
  dsimp only
  split
  · next operator found =>
    refine (pipeNames_echoes operator).bind fun names names' hnames ↦
      (symbol_echoes _).bind fun _ _ _ ↦ ?_
    obtain ⟨hitem, haccumulator⟩ := Prod.mk.inj hnames
    have ends (body body' : List Statement) (hbody : k.Like body body') :
        Echoes k .lax .lax (do
          return ({ operator := ⟨operator, name.span⟩, item := names.1, accumulator := names.2, body,
                    span := ← spanFrom first.span } : Operation)) (do
          return { operator := ⟨operator, name'.span⟩, item := names'.1, accumulator := names'.2,
                   body := body', span := ← spanFrom first'.span }) := by
      refine .close rfl (congrArg Token.span hfirst) fun s s' extents ↦ ?_
      simp only [Likeness.Like, recast_operationOf, recast_located] at hitem haccumulator hbody ⊢
      rw [hitem, haccumulator, hbody, extents,
        show k.left.place name.span = k.right.place name'.span from place]
    exact .atBlock ((indentedBody_echoes hg rfl).bind ends) ((inlineBody_echoes hg).bind ends)
  · exact .throw (congrArg (ParseError.mk _) place)

/-- The operations of a pipe come to the same, behind inputs that are the same. -/
theorem pipeTail_echoes (hg : g.Echoing k) {input input' : Expr} {first first' : Span}
    (hinput : k.Like input input') (hfirst : k.Like first first') :
    Echoes k .lax .lax (pipeTail g input first) (pipeTail g input' first') := by
  refine (manyWhile_echoes (fun _ ↦ atSymbol_forward _)
    (fun n ↦ (pipeOperation_forward (hg.forward n)).fewer) atPipe_echoes
      (pipeOperation_echoes hg)).bind
    fun operations operations' hoperations ↦ .close rfl hfirst fun s s' extents ↦ ?_
  simp only [Likeness.Like, recast_pipeOf] at hinput hoperations ⊢
  rw [hinput, hoperations, extents]

/-- A look for a pipe finds the same. -/
theorem atPipe?_echoes (pipes : Bool) : Echoes k .lax .lax (atPipe pipes) (atPipe pipes) :=
  atPipe_echoes.bind fun _ _ same ↦ .pure (congrArg (pipes && ·) same)

/-- A value comes to the same. -/
theorem value_echoes (hg : g.Echoing k) (pipes : Bool) (ha : a.ready = true) :
    Echoes k a .lax (value g pipes) (value g pipes) := by
  let rest (first : Span) : Parser Expr := do
    let input ← primary g pipes
    if ← atPipe pipes then return .action (.pipe (← pipeTail g input first)) else return input
  have reads (first first' : Span) (hfirst : k.Like first first') :
      Echoes k a .lax (rest first) (rest first') := by
    refine (primary_echoes hg pipes ha).bind fun input input' hinput ↦ ?_
    refine (atPipe?_echoes pipes).bind fun opens opens' same ↦ ?_
    obtain rfl : opens = opens' := same
    cases opens with
    | true =>
      refine (pipeTail_echoes hg hinput hfirst).bind fun pipe pipe' like ↦ .pure ?_
      simp only [Likeness.Like, recast_expr_action, recast_pipe] at like ⊢
      rw [like]
    | false => exact .pure hinput
  have whole := Echoes.first rest reads ha
  exact whole

end Parser

end ProseLang
