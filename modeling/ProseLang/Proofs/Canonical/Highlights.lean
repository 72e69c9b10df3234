import ProseLang.Proofs.Canonical.Agents
import ProseLang.Proofs.Canonical.Kept
import ProseLang.Proofs.Canonical.Leaves
import ProseLang.Proofs.Editor.Overlap

/-!
# Highlights of canonical programs

What expansion makes up has no place and is not highlighted (`Highlight.ofIdent_made`,
`Context.IsMade`). What a session takes over from its agent keeps its place, so it is highlighted
once more where the agent is defined: expansion gives copies of what agents lend, and nothing else
changes (`canonicalBody_carries`, by recursion on the program). As nothing else is highlighted at
the places of the copies (`AgentOf.alone`), a compiled program is highlighted as the program is, but
for comments and arrows (`compile_highlights`).
-/

namespace ProseLang

open Highlight

/-! ## What is made up -/

/-- Whether a context names only what is not written there. -/
def Context.IsMade (c : Context) : Prop := ∀ x ∈ c.names, x.span = .nowhere

private theorem Highlight.ofIdent_made {kind : HighlightKind} {modifiers : List HighlightModifier}
    {x : Ident} (h : x.span = .nowhere) : ofIdent kind x modifiers = [] := by
  rw [ofIdent, h]
  rfl

private theorem Context.isMade_empty : Context.empty.IsMade := fun _ h ↦ absurd h List.not_mem_nil

private theorem Context.IsMade.highlights {c : Context} (h : c.IsMade) :
    (Visit.context c).highlights = [] :=
  List.flatMap_eq_nil_iff.2 fun x hx ↦ ofIdent_made (h x hx)

private theorem Statement.resultContext_isMade (s : Statement) : s.resultContext.IsMade := by
  unfold resultContext
  split
  · split
    · exact Context.isMade_empty
    · exact List.forall_mem_map.2 fun _ _ ↦ rfl
  · split
    · exact List.forall_mem_singleton.2 rfl
    · exact Context.isMade_empty

private theorem OperationOf.bodyContext_isMade (o : Operation) : o.bodyContext.IsMade := by
  rw [bodyContext]
  split
  · exact List.forall_mem_cons.2 ⟨rfl, List.forall_mem_singleton.2 rfl⟩
  · exact List.forall_mem_singleton.2 rfl

private theorem ParallelOf.highlights_withDefaults (p : Parallel) (body : List Statement) :
    (Statement.parallel { p.withDefaults with body }).highlights
      = (Statement.parallel p).highlights := by
  have join : ofOption ofQuoted p.withDefaults.join = ofOption ofQuoted p.join := by
    rw [withDefaults]
    cases p.join <;> rfl
  have onFail : ofOption ofQuoted p.withDefaults.onFail = ofOption ofQuoted p.onFail := by
    rw [withDefaults]
    cases p.onFail <;> rfl
  have count : ofOption ofNumber p.withDefaults.count = ofOption ofNumber p.count := by
    simp only [withDefaults]
    cases p.count with
    | none => split <;> rfl
    | some => rfl
  simp only [Statement.highlights, join, onFail, count]
  rfl

private theorem OperationOf.highlights_named (o : Operation) (body : List Statement) :
    OperationOf.highlights ⟨o.operator, some o.itemIdent, o.accumulatorIdent?, body, o.span⟩
      = o.highlights := by
  have item : ofOption (ofDeclared .parameter) (some o.itemIdent)
      = ofOption (ofDeclared .parameter) o.item := by
    rw [itemIdent]
    cases o.item <;> rfl
  have accumulator : ofOption (ofDeclared .parameter) o.accumulatorIdent?
      = ofOption (ofDeclared .parameter) o.accumulator := by
    rw [accumulatorIdent?]
    cases o.accumulator <;> split <;> rfl
  simp only [highlights, item, accumulator]

/-! ## What is taken over -/

/-- What is highlighted of the settings that the agents of a program lend. -/
def Expansion.lent (k : Expansion) : List Highlight :=
  k.agents.flatMap fun a ↦ a.lends.flatMap Prod.snd

/-- Whether what is highlighted of some parts is what lasts of what is highlighted of others, with
copies of what agents lend. -/
def Expansion.Carries (k : Expansion) (vs ws : List Visit) : Prop :=
  Adopts k.lent (vs.flatMap Visit.lasting) (ws.flatMap Visit.highlights)

/-- A statement and what is highlighted within it. -/
def Statement.parts (s : Statement) : List Visit :=
  Visit.opened highlightedInside (.statement s) (s.visits highlightedInside)

namespace Expansion.Carries

variable {k : Expansion} {v w : Visit} {vs ws vs' ws' : List Visit}

private theorem nil : k.Carries [] [] := Adopts.refl []

private theorem append (h : k.Carries vs ws) (h' : k.Carries vs' ws') :
    k.Carries (vs ++ vs') (ws ++ ws') := by
  rw [Carries, List.flatMap_append, List.flatMap_append]
  exact Adopts.append h h'

private theorem cons (head : Adopts k.lent v.lasting w.highlights) (h : k.Carries vs ws) :
    k.Carries (v :: vs) (w :: ws) := Adopts.append head h

/-- Parts that are highlighted in the same way. -/
theorem plain (head : w.highlights = v.lasting) (h : k.Carries vs ws) :
    k.Carries (v :: vs) (w :: ws) := cons (.of_eq head) h

/-- Parts other than actions are highlighted as before. -/
theorem settings (h : ∀ v ∈ vs, v.isSetting = true) : k.Carries vs vs := by
  refine .of_eq (List.flatMap_congr fun v hv ↦ ?_)
  cases v with
  | action => cases h _ hv
  | _ => rfl

end Expansion.Carries

/-! ## Sessions -/

section

variable {k : Expansion}

private theorem Expansion.mem_lent {a : Agent} (ha : a ∈ k.agents) {x : Outline × List Highlight}
    (hx : x ∈ a.lends) : ∀ h ∈ x.2, h ∈ k.lent := fun _ hh ↦
  List.mem_flatMap.2 ⟨a, ha, List.mem_flatMap.2 ⟨x, hx, hh⟩⟩

/-- A session takes over what its agent lends it, where it has nothing itself. -/
theorem Expansion.session_adopts (k : Expansion) (context : Context) (s : Session) :
    Adopts k.lent (ofOption ofModel s.model) (ofOption ofModel (k.session context s).model)
      ∧ Adopts k.lent (ofOption (ofIdents .skill) s.skills)
        (ofOption (ofIdents .skill) (k.session context s).skills)
      ∧ Adopts k.lent (ofOption (ofString .string) s.prompt)
        (ofOption (ofString .string) (k.session context s).prompt) := by
  cases found : k.agentOf? s with
  | none =>
    obtain ⟨model, skills, prompt⟩ := session_inheritsNothing found context none
    exact ⟨.of_eq (congrArg _ model), .of_eq (congrArg _ skills), .of_eq (congrArg _ prompt)⟩
  | some a =>
    obtain ⟨name, -, known⟩ := Option.bind_eq_some_iff.1 found
    have ha : a ∈ k.agents := List.mem_of_find?_eq_some known
    obtain ⟨model, skills, prompt⟩ := session_inherits found context none
    have model : (k.session context s).model = (s.model <|> a.model) := model
    have prompt : (k.session context s).prompt = (s.prompt <|> a.prompt) := prompt
    have skills : (k.session context s).skills
      = (s.skills <|> if a.skills.isEmpty then none else some a.skills) := skills
    rw [model, skills, prompt]
    refine ⟨.orElse fun m hm ↦ ?_, .orElse fun xs hxs ↦ ?_, .orElse fun x hx ↦ ?_⟩
    · exact mem_lent ha (AgentOf.model_mem_lends hm)
    · split at hxs
      · cases hxs
      · obtain rfl := Option.some.inj hxs
        exact List.forall_mem_flatMap.2 fun x hx ↦ mem_lent ha (AgentOf.skill_mem_lends hx)
    · exact mem_lent ha (AgentOf.prompt_mem_lends hx)

private theorem Action.visits_session (inside : Visit → Bool) (s : Session) :
    (Action.session s).visits inside = Visit.strings s.prompt
      ++ .context s.context :: propertyVisits inside s.properties := rfl

/-- What else a session is given is made up. -/
theorem Expansion.session_fields (k : Expansion) (context : Context) (s : Session) :
    (k.session context s).name = s.name
      ∧ (k.session context s).backoff
        = (s.backoff <|> if s.retry.isSome then some (.made "none") else none)
      ∧ (k.session context s).context = if s.context.isImplicit then context else s.context := by
  unfold session withAgent
  split <;> exact ⟨rfl, rfl, rfl⟩

/-- A session without other settings than those that sessions have is highlighted as before, and for
what it takes over. -/
theorem Expansion.Carries.session {context : Context} (made : context.IsMade) {s : Session}
    (plain : s.properties = []) :
    k.Carries (.action (.session s) :: (Action.session s).visits highlightedInside)
      (.action (.session (k.session context s))
        :: (Action.session (k.session context s)).visits highlightedInside) := by
  have kept := k.session_gains context s
  obtain ⟨name, backoff, given⟩ := k.session_fields context s
  obtain ⟨model, skills, prompt⟩ := k.session_adopts context s
  have waits : ofOption ofQuoted (k.session context s).backoff = ofOption ofQuoted s.backoff := by
    rw [backoff]
    cases s.backoff with
    | none => split <;> rfl
    | some => rfl
  have sees : (Visit.context (k.session context s).context).highlights
      = (Visit.context s.context).lasting := by
    rw [given]
    split
    · next implicit =>
      rw [made.highlights]
      cases written : s.context with
      | implicit => rfl
      | _ =>
        rw [written] at implicit
        cases implicit
    · rfl
  have strings (x : Option StringLit) : (Visit.strings x).flatMap Visit.lasting
      = ofOption (ofString .string) x
        ∧ (Visit.strings x).flatMap Visit.highlights = ofOption (ofString .string) x := by
    cases x <;> simp [Visit.strings, Visit.lasting, Visit.highlights, ofOption]
  have getD (x : Option (List Ident)) :
      ofIdents .skill (x.getD []) = ofOption (ofIdents .skill) x := by
    cases x <;> rfl
  refine cons ?_ ?_
  · simp only [Visit.lasting, Visit.highlights, Action.withoutArrow, Action.highlights, getD, name,
      kept.span, kept.agent, kept.keys, kept.retry, kept.arrow, waits]
    exact (((((Adopts.refl _).append model).append skills).append (.refl _)).append
      (.refl _)).append
      (.refl _) |>.append (.refl _)
  · rw [Action.visits_session, Action.visits_session, kept.properties, plain]
    refine append ?_ (.plain sees nil)
    rw [Carries, (strings _).1, (strings _).2]
    exact prompt

/-- A name that is made up is not highlighted. -/
theorem Expansion.Carries.rename {vs : List Visit} {x : Session} {name : Ident}
    (unnamed : x.name = none) (place : name.span = .nowhere)
    (h : k.Carries vs (Statement.action (.session x)).parts) :
    k.Carries vs (Statement.action (.session { x with name := some name })).parts := by
  have own : (Action.session { x with name := some name }).highlights
      = (Action.session x).highlights := by
    simp only [Action.highlights, unnamed, ofOption_some, ofOption_none, ofDeclared,
      ofIdent_made place]
  have same : (Statement.action (.session { x with name := some name })).parts.flatMap
      Visit.highlights = (Statement.action (.session x)).parts.flatMap Visit.highlights :=
    congrArg (· ++ ((Action.session x).visits highlightedInside).flatMap Visit.highlights) own
  rwa [Carries, same]

end

/-! ## Programs -/

private theorem Highlight.ofBranches_congr {branches branches' : List Branch}
    (h : branches'.map BranchOf.keyword = branches.map BranchOf.keyword) :
    ofBranches branches' = ofBranches branches := by
  have words (bs : List Branch) : bs.flatMap (fun b ↦ ofKeyword .elif b.keyword)
      = (bs.map BranchOf.keyword).flatMap (ofKeyword .elif) := by
    rw [List.flatMap_map]
  cases branches with
  | nil =>
    obtain rfl := List.map_eq_nil_iff.1 h
    rfl
  | cons b branches =>
    cases branches' with
    | nil => cases h
    | cons b' branches' =>
      obtain ⟨first, rest⟩ := List.cons.inj h
      rw [ofBranches, ofBranches, first, words, words, rest]

/-- What is highlighted where a handler starts. -/
def Highlight.ofHandler (h : Option Handler) : List Highlight :=
  ofOption (fun h ↦ ofKeyword .catch_ h.span ++ ofOption ofAsBinding h.error) h

/-- What is highlighted where a clause with a body only starts. -/
def Highlight.ofClause (word : Keyword) (b : Option Body) : List Highlight :=
  ofOption (fun b ↦ ofKeyword word b.span) b

/-- What is highlighted where options start. -/
def Highlight.ofOptions (options : List ChoiceOption) : List Highlight :=
  options.flatMap fun o ↦ ofKeyword .option o.span

/-- What is highlighted of the keys of an object. -/
def Highlight.ofEntries (entries : List Entry) : List Highlight :=
  (entries.filter (·.value.isSome)).flatMap fun e ↦ ofIdent .property e.key []

private theorem Expansion.Carries.body {k : Expansion} {s t : Statement} {ss ts : List Statement}
    (first : k.Carries s.parts t.parts)
    (rest : k.Carries (bodyVisits highlightedInside ss) (bodyVisits highlightedInside ts)) :
    k.Carries (bodyVisits highlightedInside (s :: ss)) (bodyVisits highlightedInside (t :: ts)) :=
  first.append (.plain rfl rest)

section

open Expansion (Carries)

variable {k : Expansion} {K : Knowledge}

mutual

private theorem Statement.canonical_carries {context : Context} (made : context.IsMade) {p : Place}
    {Γ : Env} : (s : Statement) → s.Valid K p Γ →
      Yields (fun t ↦ k.Carries s.parts t.parts) (s.canonical k context)
  | .comment _, _ | .importSkill _, _ => .pure (.plain rfl .nil)
  | .agent _, valid => .pure (.plain rfl (.settings valid.isSetting))
  | .throw _, _ => .pure (.plain rfl (.settings Visit.isSetting_strings))
  | .block ⟨_, _, body, _⟩, ⟨_, valid⟩ =>
    .bind (canonicalBody_carries Context.isMade_empty body valid) fun _ h ↦ .pure (.plain rfl h)
  | .binding kind ⟨_, value, _⟩, ⟨valid, _⟩ =>
    .bind (value.canonical_carries made valid) fun _ h ↦ .pure (.plain (by cases kind <;> rfl) h)
  | .assignment ⟨_, value, _⟩, ⟨valid, _⟩ =>
    .bind (value.canonical_carries made valid) fun _ h ↦ .pure (.plain rfl h)
  | .action a, ⟨valid, _⟩ =>
    .bind (a.canonical_carries made valid) fun _ h ↦ .pure (.plain rfl h)
  | .parallel ⟨join, onFail, count, keys, body, span⟩, ⟨_, valid⟩ =>
    .bind (canonicalBranches_carries made 0 body valid) fun body' h ↦ .pure <|
      .plain (ParallelOf.highlights_withDefaults ⟨join, onFail, count, keys, [], span⟩ body') h
  | .repeated ⟨_, _, body, _⟩, valid =>
    .bind (canonicalBody_carries made body valid) fun _ h ↦ .pure (.plain rfl h)
  | .forEach ⟨_, _, collection, _, _, _, body, _⟩, ⟨valid, _, inner⟩ =>
    .bind (collection.canonical_carries made valid) fun _ first ↦
      .bind (canonicalBody_carries made body inner) fun _ h ↦ .pure (.plain rfl (first.append h))
  | .loop ⟨condition, _, _, _, body, _⟩, valid => by
    have asked : ∀ v ∈ (condition.map fun c ↦ Visit.discretion c.discretion).toList,
        v.isSetting = true := by
      cases condition with
      | none => nofun
      | some c => exact List.forall_mem_singleton.2 rfl
    exact .bind (canonicalBody_carries made body valid) fun _ h ↦
      .pure (.plain rfl ((Carries.settings asked).append h))
  | .attempt ⟨body, handler, cleanup, span⟩, ⟨valid, handled, cleaned⟩ =>
    .bind (canonicalBody_carries made body valid) fun _ hb ↦
      .bind (canonicalHandler_carries made handler handled) fun handler' ⟨caught, hh⟩ ↦
        .bind (canonicalClause_carries made .finally_ cleanup cleaned) fun cleanup' ⟨ended, hc⟩ ↦ by
          have own : ofKeyword .try_ span ++ ofHandler handler' ++ ofClause .finally_ cleanup'
              = ofKeyword .try_ span ++ ofHandler handler ++ ofClause .finally_ cleanup := by
            rw [caught, ended]
          exact .pure (.plain own ((hb.append hh).append hc))
  | .choice ⟨_, options, span⟩, valid =>
    .bind (canonicalOptions_carries made options valid) fun _ ⟨started, h⟩ ↦
      .pure (.plain (congrArg (ofKeyword .choice span ++ ·) started) (.plain rfl h))
  | .conditional ⟨branches, otherwise, _⟩, ⟨valid, rest⟩ =>
    .bind (canonicalConditions_carries made branches valid) fun branches' ⟨words, hb⟩ ↦
      .bind (canonicalClause_carries made .else_ otherwise rest) fun otherwise' ⟨ended, ho⟩ ↦ by
        have own : ofBranches branches' ++ ofClause .else_ otherwise'
            = ofBranches branches ++ ofClause .else_ otherwise := by
          rw [ofBranches_congr words, ended]
        exact .pure (.plain own (hb.append ho))

/-- The statements of a sequence are highlighted as before. -/
theorem canonicalBody_carries {context : Context} (made : context.IsMade) {p : Place} {Γ : Env} :
    (body : List Statement) → BodyValid K p Γ body →
      Yields (fun body' ↦ k.Carries (bodyVisits highlightedInside body)
          (bodyVisits highlightedInside body'))
        (canonicalBody k context body)
  | [], _ => .pure .nil
  | s :: body, ⟨valid, rest⟩ => by
    refine .bind (s.canonical_carries made valid) fun t first ↦ ?_
    have named : Yields (fun u ↦ k.Carries s.parts u.parts) (t.withName k) := by
      refine t.withName_yields (P := fun u ↦ k.Carries s.parts u.parts) first ?_
      rintro x name rfl unnamed place -
      exact first.rename unnamed place
    refine .bind named fun u first' ↦ ?_
    have next : (if u.isExecutable then u.resultContext else context).IsMade := by
      split
      · exact u.resultContext_isMade
      · exact made
    exact .bind (canonicalBody_carries next body rest) fun _ h ↦ .pure (.body first' h)

private theorem canonicalBranches_carries {context : Context} (made : context.IsMade) {p : Place}
    {Γ : Env} (i : Nat) :
    (body : List Statement) → BodyValid K p Γ body →
      Yields (fun body' ↦ k.Carries (bodyVisits highlightedInside body)
          (bodyVisits highlightedInside body'))
        (canonicalBranches k context i body)
  | [], _ => .pure .nil
  | s :: body, ⟨valid, rest⟩ => by
    refine .bind (s.canonical_carries made valid) fun t first ↦ ?_
    split
    · have stands : k.Carries s.parts (t.asBranch i).parts := by
        apply t.asBranch_cases (P := fun u ↦ k.Carries s.parts u.parts) first
        rintro a rfl -
        exact first
      exact .bind (canonicalBranches_carries made (i + 1) body rest) fun _ h ↦
        .pure (.body stands h)
    · exact .bind (canonicalBranches_carries made i body rest) fun _ h ↦ .pure (.body first h)

private theorem canonicalHandler_carries {context : Context} (made : context.IsMade) {p : Place}
    {Γ : Env} : (handler : Option Handler) → HandlerValid K p Γ handler →
      Yields (fun handler' ↦ ofHandler handler' = ofHandler handler
          ∧ k.Carries (handlerVisits highlightedInside handler)
            (handlerVisits highlightedInside handler'))
        (canonicalHandler k context handler)
  | none, _ => .pure ⟨rfl, .nil⟩
  | some ⟨_, body, _⟩, valid =>
    .bind (canonicalBody_carries made body valid) fun _ h ↦ .pure ⟨rfl, h⟩

private theorem canonicalClause_carries {context : Context} (made : context.IsMade) {p : Place}
    {Γ : Env} (word : Keyword) :
    (clause : Option Body) → ClauseValid K p Γ clause →
      Yields (fun clause' ↦ ofClause word clause' = ofClause word clause
          ∧ k.Carries (clauseVisits highlightedInside clause)
            (clauseVisits highlightedInside clause'))
        (canonicalClause k context clause)
  | none, _ => .pure ⟨rfl, .nil⟩
  | some ⟨body, _⟩, valid =>
    .bind (canonicalBody_carries made body valid) fun _ h ↦ .pure ⟨rfl, h⟩

private theorem canonicalOptions_carries {context : Context} (made : context.IsMade) {p : Place}
    {Γ : Env} : (options : List ChoiceOption) → OptionsValid K p Γ options →
      Yields (fun options' ↦ ofOptions options' = ofOptions options
          ∧ k.Carries (optionVisits highlightedInside options)
            (optionVisits highlightedInside options'))
        (canonicalOptions k context options)
  | [], _ => .pure ⟨rfl, .nil⟩
  | ⟨_, body, span⟩ :: options, ⟨_, valid, rest⟩ =>
    .bind (canonicalBody_carries made body valid) fun _ first ↦
      .bind (canonicalOptions_carries made options rest) fun _ ⟨started, h⟩ ↦
        .pure ⟨congrArg (ofKeyword .option span ++ ·) started, .append (.plain rfl first) h⟩

private theorem canonicalConditions_carries {context : Context} (made : context.IsMade) {p : Place}
    {Γ : Env} :
    (branches : List Branch) → BranchesValid K p Γ branches →
      Yields (fun branches' ↦ branches'.map BranchOf.keyword = branches.map BranchOf.keyword
          ∧ k.Carries (branchVisits highlightedInside branches)
            (branchVisits highlightedInside branches'))
        (canonicalConditions k context branches)
  | [], _ => .pure ⟨rfl, .nil⟩
  | ⟨keyword, _, body, _⟩ :: branches, ⟨valid, rest⟩ =>
    .bind (canonicalBody_carries made body valid) fun _ first ↦
      .bind (canonicalConditions_carries made branches rest) fun _ ⟨words, h⟩ ↦
        .pure ⟨congrArg (keyword :: ·) words, .append (.plain rfl first) h⟩

private theorem Action.canonical_carries {context : Context} (made : context.IsMade) {p : Place}
    {Γ : Env} : (a : Action) → a.Valid K p Γ →
      Yields (fun b ↦ k.Carries (.action a :: a.visits highlightedInside)
          (.action b :: b.visits highlightedInside))
        (a.canonical k context)
  | .session _, valid => .pure (.session made valid.properties)
  | .pipe ⟨input, operations, _⟩, ⟨valid, rest⟩ =>
    .bind (input.canonical_carries made valid) fun _ first ↦
      .bind (canonicalOperations_carries operations rest) fun _ h ↦
        .pure (.plain rfl (first.append h))
  | .doBlock ⟨body, _⟩, valid =>
    .bind (canonicalBody_carries made body valid) fun _ h ↦ .pure (.plain rfl h)
  | .invoke ⟨_, args, _⟩, ⟨valid, _⟩ =>
    .bind (canonicalValues_carries made args valid) fun _ h ↦ .pure (.plain rfl h)

private theorem canonicalOperations_carries {p : Place} {Γ : Env} :
    (operations : List Operation) → OperationsValid K p Γ operations →
      Yields (fun operations' ↦ k.Carries (operationVisits highlightedInside operations)
          (operationVisits highlightedInside operations'))
        (canonicalOperations k operations)
  | [], _ => .pure .nil
  | ⟨operator, item, accumulator, body, span⟩ :: operations, ⟨_, valid, rest⟩ => by
    let o : Operation := ⟨operator, item, accumulator, [], span⟩
    exact .bind (canonicalBody_carries o.bodyContext_isMade body valid) fun body' first ↦
      .bind (canonicalOperations_carries operations rest) fun _ h ↦
        .pure (.append (.plain (o.highlights_named body') first) h)

private theorem Expr.canonical_carries {context : Context} (made : context.IsMade) {p : Place}
    {Γ : Env} : (e : Expr) → e.Valid K p Γ →
      Yields (fun x ↦ k.Carries (e.visits highlightedInside) (x.visits highlightedInside))
        (e.canonical k context)
  | .action a, valid => .bind (a.canonical_carries made valid) fun _ h ↦ .pure h
  | .string _, _ | .ident _, _ | .discretion _, _ => .pure (.plain rfl (.plain rfl .nil))
  | .number _, _ => .pure (.plain rfl .nil)
  | .array ⟨items, _⟩, valid =>
    .bind (canonicalValues_carries made items valid) fun _ h ↦ .pure (.plain rfl h)
  | .object ⟨entries, _⟩, valid =>
    .bind (canonicalEntries_carries made entries valid) fun _ ⟨keys, h⟩ ↦ .pure (.plain keys h)

private theorem canonicalValues_carries {context : Context} (made : context.IsMade) {p : Place}
    {Γ : Env} : (es : List Expr) → ValuesValid K p Γ es →
      Yields (fun es' ↦ k.Carries (valueVisits highlightedInside es)
          (valueVisits highlightedInside es'))
        (canonicalValues k context es)
  | [], _ => .pure .nil
  | e :: es, ⟨valid, rest⟩ =>
    .bind (e.canonical_carries made valid) fun _ first ↦
      .bind (canonicalValues_carries made es rest) fun _ h ↦ .pure (first.append h)

private theorem canonicalEntries_carries {context : Context} (made : context.IsMade) {p : Place}
    {Γ : Env} : (entries : List Entry) → EntriesValid K p Γ entries →
      Yields (fun entries' ↦ ofEntries entries' = ofEntries entries
          ∧ k.Carries (entryVisits highlightedInside entries)
            (entryVisits highlightedInside entries'))
        (canonicalEntries k context entries)
  | [], _ => .pure ⟨rfl, .nil⟩
  | ⟨key, some value⟩ :: entries, ⟨valid, rest⟩ =>
    .bind (value.canonical_carries made valid) fun _ first ↦
      .bind (canonicalEntries_carries made entries rest) fun _ ⟨keys, h⟩ ↦
        .pure ⟨congrArg (ofIdent .property key [] ++ ·) keys, first.append h⟩
  | ⟨_, none⟩ :: entries, ⟨_, rest⟩ =>
    .bind (canonicalEntries_carries made entries rest) fun _ ⟨keys, h⟩ ↦
      .pure ⟨keys, .plain rfl h⟩

end

end

/-! ## Programs without comments -/

private theorem Highlight.ofOptions_withoutComments (options : List ChoiceOption) :
    ofOptions (optionsWithoutComments options) = ofOptions options := by
  induction options with
  | nil => rfl
  | cons o options ih =>
    exact congrArg (ofKeyword .option o.span ++ ·) ih

private theorem Highlight.ofEntries_withoutComments (entries : List Entry) :
    ofEntries (entriesWithoutComments entries) = ofEntries entries := by
  induction entries with
  | nil => rfl
  | cons e entries ih =>
    rcases e with ⟨key, _ | value⟩
    · exact ih
    · exact congrArg (ofIdent .property key [] ++ ·) ih

private theorem Highlight.ofClause_withoutComments (word : Keyword) (clause : Option Body) :
    ofClause word (clauseWithoutComments clause) = ofClause word clause := by
  cases clause <;> rfl

private theorem Highlight.ofHandler_withoutComments (handler : Option Handler) :
    ofHandler (handlerWithoutComments handler) = ofHandler handler := by
  cases handler <;> rfl

/-- Comments among statements are not highlighted with the parts of a program. -/
theorem overlooks_lasting : Visit.Overlooks highlightedInside Visit.lasting where
  comment _ := rfl
  statementEnd := rfl
  statement s := by
    cases s with
    | binding kind => cases kind <;> rfl
    | attempt t =>
      change _ ++ ofHandler (handlerWithoutComments t.handler)
        ++ ofClause .finally_ (clauseWithoutComments t.cleanup) = _
      rw [ofHandler_withoutComments, ofClause_withoutComments]
      rfl
    | choice c =>
      exact congrArg (ofKeyword .choice c.span ++ ·) (ofOptions_withoutComments c.options)
    | conditional c =>
      change ofBranches (branchesWithoutComments c.branches)
        ++ ofClause .else_ (clauseWithoutComments c.otherwise) = _
      rw [ofBranches_congr (branchesWithoutComments_keywords c.branches), ofClause_withoutComments]
      rfl
    | _ => rfl
  action a := by cases a <;> rfl
  operation _ _ := rfl
  value e := by
    cases e with
    | object o => exact ofEntries_withoutComments o.entries
    | _ => rfl
  insideStatement s := by cases s <;> rfl
  insideAction _ := rfl
  insideOperation _ _ := rfl

/-- What an agent lends is highlighted where the agent is defined. -/
theorem AgentOf.lends_highlighted {a : Agent} {body : List Statement} (top : .agent a ∈ body)
    {x : Outline × List Highlight} (hx : x ∈ a.lends) :
    ∀ h ∈ x.2, h ∈ (bodyVisits highlightedInside body).flatMap Visit.lasting := by
  have own {h : Highlight} (member : h ∈ (Statement.agent a).highlights) :
      h ∈ (bodyVisits highlightedInside body).flatMap Visit.lasting :=
    List.mem_flatMap.2 ⟨_, statement_mem_bodyVisits top, member⟩
  simp only [lends, List.mem_append, List.mem_map, Option.mem_toList] at hx
  rcases hx with (⟨m, hm, rfl⟩ | ⟨s, hs, rfl⟩) | ⟨s, hs, rfl⟩
  · intro h member
    refine own ?_
    rw [Statement.highlights, hm]
    exact List.mem_append_left _ (List.mem_append_right _ member)
  · intro h member
    refine List.mem_flatMap.2 ⟨.string s, opened_subset_bodyVisits top ?_, member⟩
    refine List.mem_cons_of_mem _ ?_
    have inside : highlightedInside (.statement (.agent a)) = true := rfl
    rw [if_pos inside, Statement.visits_agent, hs]
    exact List.mem_append_left _ (List.mem_append_left _ List.mem_cons_self)
  · intro h member
    exact own (List.mem_append_right _ (List.mem_flatMap.2 ⟨s, hs, member⟩))

/-- The canonical form of a valid program is highlighted as the program is, without its arrows and
with copies of what agents lend. -/
theorem Program.canonical_adopts {options : ValidatorOptions} {p : Program}
    (valid : p.Valid options) : Adopts (Expansion.ofProgram p.withoutComments).lent
      ((bodyVisits highlightedInside p.statements).flatMap Visit.lasting)
      ((bodyVisits highlightedInside p.withoutComments.canonical.statements).flatMap
        Visit.highlights) := by
  rw [← flatMap_bodyVisits overlooks_lasting p.statements]
  exact canonicalBody_carries Context.isMade_empty p.withoutComments.statements
    (Program.valid_withoutComments valid).statements 0

private theorem Expansion.exists_lends {p : Program} {h : Highlight}
    (member : h ∈ (ofProgram p.withoutComments).lent) :
    ∃ a, .agent a ∈ p.statements ∧ ∃ x ∈ a.lends, h ∈ x.2 := by
  rw [lent, agents_withoutComments] at member
  obtain ⟨a, ha, member⟩ := List.mem_flatMap.1 member
  exact ⟨a, mem_agents_iff.1 ha, List.mem_flatMap.1 member⟩

/-- Where a valid program is compiled, what is highlighted of the result is what is highlighted of
the program, but for comments and arrows. -/
theorem compile_highlights (source : String) (validation : ValidatorOptions)
    (valid : (validate (parse source).program validation).isValid = true) :
    ∃ c, compile (parse source).program {} = .ok c
      ∧ c.program.highlights
        = (parse source).program.highlights.filter fun h ↦ h.kind ≠ .comment && !h.isArrow := by
  rw [validate_isValid_iff] at valid
  refine ⟨_, rfl, ?_⟩
  let p := (parse source).program
  let lasting := (bodyVisits highlightedInside p.statements).flatMap Visit.lasting
  have among : ∀ h ∈ (Expansion.ofProgram p.withoutComments).lent, h ∈ lasting := by
    intro h member
    obtain ⟨a, top, x, hx, hh⟩ := Expansion.exists_lends member
    exact AgentOf.lends_highlighted top hx h hh
  have alone : ∀ h ∈ (Expansion.ofProgram p.withoutComments).lent, ∀ g ∈ lasting, h.samePlace g →
      h = g := by
    intro h member g hg same
    obtain ⟨a, top, x, hx, hh⟩ := Expansion.exists_lends member
    obtain ⟨v, hv, hg⟩ := List.mem_flatMap.1 hg
    exact AgentOf.alone top hx hh (mem_visits_of_highlightedInside hv) hg same
  calc p.withoutComments.canonical.highlights
    _ = firsts lasting := (Program.canonical_adopts valid).firsts among alone
    _ = p.highlights.filter isLasting := (filter_highlights_parse source).symm

/-- The first session of the sequence takes over all that its agent lends, although the agent is
defined below. -/
theorem compile_highlights_lent :
    let source := "import \"lint\" from \"./lint\"\nsession: b -> session \"c\" # now\nagent b:\n  model: \"opus\"\n  prompt: \"d\"\n  skills: [\"lint\"]\n"
    let p := (parse source).program
    (validate p {}).isValid = true
      ∧ ∃ c, compile p {} = .ok c
        ∧ c.program.highlights = p.highlights.filter fun h ↦ h.kind ≠ .comment && !h.isArrow := by
  intro source p
  have valid : (validate p {}).isValid = true := by decide +kernel
  exact ⟨valid, compile_highlights source {} valid⟩

end ProseLang
