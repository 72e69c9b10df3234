import ProseLang.Canonical.Compilation
import ProseLang.Grammar.Parsing
import ProseLang.Proofs.Canonical.Results
import ProseLang.Proofs.Canonical.Validity

/-!
# Hygiene

Expansion writes a context into every session that has none. Main statement: the context consists of
the names that are handed down to the session, and these still mean what they mean where they come
from, unless one of them is declared anew on the way down (`compile_context_resolves`). Expansion
does not look at such declarations; where there is one, the session gets what it names
(`compiled_context_captured`).
-/

namespace ProseLang

open Expansion

/-- Whether two lists have the same length and are related place by place. -/
structure Corresponds {α β : Type} (R : α → β → Prop) (as : List α) (bs : List β) : Prop where
  length : bs.length = as.length
  each : ∀ x ∈ as.zip bs, R x.1 x.2

namespace Corresponds

variable {α β : Type} {R : α → β → Prop}

/-- Nothing corresponds to nothing. -/
theorem nil : Corresponds R [] [] := ⟨rfl, nofun⟩

/-- One thing corresponds to one. -/
theorem singleton {a : α} {b : β} (h : R a b) : Corresponds R [a] [b] :=
  ⟨rfl, List.forall_mem_singleton.2 h⟩

/-- Lists one after the other correspond when each pair does. -/
theorem append {as as' : List α} {bs bs' : List β} (h : Corresponds R as bs)
    (h' : Corresponds R as' bs') : Corresponds R (as ++ as') (bs ++ bs') := by
  refine ⟨by rw [List.length_append, List.length_append, h.length, h'.length], ?_⟩
  rw [List.zip_append h.length.symm]
  exact List.forall_mem_append.2 ⟨h.each, h'.each⟩

/-- One thing in front of each list. -/
theorem cons {a : α} {b : β} {as : List α} {bs : List β} (h : R a b) (h' : Corresponds R as bs) :
    Corresponds R (a :: as) (b :: bs) :=
  (singleton h).append h'

/-- A list corresponds to itself if its elements do. -/
theorem refl {R : α → α → Prop} (h : ∀ a, R a a) (as : List α) : Corresponds R as as := by
  induction as with
  | nil => exact nil
  | cons a as ih => exact cons (h a) ih

end Corresponds

/-- Whether a session is the same as in the original program, and its context is what is handed down
to it, if it had none and nothing has been declared on the way that would hide a name. -/
structure Site.Keeps (site site' : Site) : Prop where
  span : site'.session.span = site.session.span
  resolves : site.session.context.isImplicit = true → site.given.Intact → site'.Resolves

/-! ## What is handed down -/

/-- Whether a context consists of the names that are handed down in a canonical program, which are
those handed down in the original one and made up names, and whether names that have not been
declared on the way mean what they mean where they come from. -/
structure Expansion.Hands (k : Expansion) (Γ : Env) (context : Context) (given given' : Given) :
    Prop where
  names : context.names.map Located.val = given'.names.map Prod.fst
  known : ∀ g ∈ given'.names, g.1 ∈ given.names.map Prod.fst ∨ k.MakesUp g.1
  declared : ∀ name ∈ given.declared, name ∈ k.used
  bindings : ∀ g ∈ given'.names, g.1 ∉ given.declared → g.2.isSome = true ∧ Γ.locate g.1 = g.2

namespace Expansion.Hands

variable {k : Expansion} {Γ : Env} {context : Context} {given given' : Given}

private theorem nothing (k : Expansion) (Γ : Env) : k.Hands Γ .empty {} {} :=
  ⟨rfl, nofun, nofun, nofun⟩

/-- The start of what is handed down. -/
theorem give {Δ : Env} {names names' : List String} (same : context.names.map Located.val = names')
    (known : ∀ x ∈ names', x ∈ names ∨ k.MakesUp x) (bound : ∀ x ∈ names', (Γ.resolve x).isSome) :
    k.Hands Γ context (Δ.give names) (Γ.give names') where
  names := by simpa [Env.give, Function.comp_def] using same
  known := by simpa [Env.give, Function.comp_def] using known
  declared := nofun
  bindings g member _ := by
    obtain ⟨x, among, rfl⟩ := List.mem_map.1 member
    exact ⟨(Γ.isSome_locate x).trans (bound x among), rfl⟩

/-- A place where the same names have the same meaning, but for some that are declared there. -/
theorem past (h : k.Hands Γ context given given') {Γ' : Env} {names : List String}
    (used : ∀ x ∈ names, x ∈ k.used)
    (same : ∀ x, (Γ.locate x).isSome = true → x ∉ names → Γ'.locate x = Γ.locate x) :
    k.Hands Γ' context (given.past names) (given'.past names) where
  names := h.names
  known := h.known
  declared := List.forall_mem_append.2 ⟨h.declared, used⟩
  bindings g member apart := by
    obtain ⟨before, here⟩ := not_or.1 (mt List.mem_append.2 apart)
    obtain ⟨bound, located⟩ := h.bindings g member before
    exact ⟨bound, (same g.1 (located ▸ bound) here).trans located⟩

/-- A scope that starts with names in use. -/
theorem enter (h : k.Hands Γ context given given') (kind : SymbolKind) {names : List Ident}
    (used : ∀ name ∈ names, name.val ∈ k.used) :
    k.Hands (Γ.enter kind names) context (given.past (names.map Located.val))
      (given'.past (names.map Located.val)) :=
  h.past (List.forall_mem_map.2 used) fun _ _ apart ↦ Env.locate_enter kind apart

/-- A scope that starts with no names. -/
theorem enterPlain (h : k.Hands Γ context given given') :
    k.Hands (Γ.enter .bodyLocal []) context given given' := { h with bindings := h.bindings }

/-- A session with what is handed down to it. -/
theorem keeps (h : k.Hands Γ context given given') (Δ : Env) (s : Session) :
    Site.Keeps ⟨s, Δ, given⟩ ⟨k.session context s, Γ, given'⟩ := by
  have settled : (k.withAgent s).context = s.context ∧ (k.withAgent s).span = s.span := by
    rw [withAgent]
    split <;> exact ⟨rfl, rfl⟩
  refine ⟨settled.2, fun isOpen intact ↦ ?_⟩
  have written : (k.session context s).context = context := by
    rw [Expansion.session, settled.1, if_pos isOpen]
  refine ⟨(congrArg (fun c ↦ c.names.map Located.val) written).trans h.names, fun g member ↦ ?_⟩
  apply h.bindings g member
  rcases h.known g member with own | made
  · obtain ⟨g', among, same⟩ := List.mem_map.1 own
    exact same ▸ intact g' among
  · exact fun declared ↦ made.1 (h.declared g.1 declared)

end Expansion.Hands

/-! ## The tree -/

/-- The name of its result does not matter to a session. -/
theorem Statement.withName_sites {k : Expansion} {s : Statement} {Γ : Env} {given : Given}
    {sites : List Site} (h : Corresponds Site.Keeps sites (s.sites Γ given)) :
    Yields (fun t ↦ Corresponds Site.Keeps sites (t.sites Γ given)) (s.withName k) := by
  refine withName_yields (P := fun t ↦ Corresponds Site.Keeps sites (t.sites Γ given)) h ?_
  rintro t name rfl - - -
  obtain ⟨site, rfl⟩ := List.length_eq_one_iff.1 h.length.symm
  have kept : site.Keeps ⟨t, Γ, given⟩ := h.each _ List.mem_cons_self
  refine .singleton ⟨kept.span, fun isOpen intact ↦ ?_⟩
  have resolved := kept.resolves isOpen intact
  exact ⟨resolved.names, resolved.bindings⟩

/-- The result of a statement of a sequence, with its name, is handed on. -/
theorem Statement.withName_hands {k : Expansion} {Γ : Env} (Δ : Env) {s : Statement}
    {names : List String} (known : ∀ x ∈ Check.resultNames s, x ∈ names ∨ k.MakesUp x)
    (assigned : ∀ a, s = .assignment a → Γ.Binds a.name) :
    Yields (fun t ↦ k.Hands (t.envAfter false Γ) t.resultContext (Δ.give names)
        ((t.envAfter false Γ).give (Check.resultNames t))) (s.withName k) := by
  have start (t : Statement) (known : ∀ x ∈ Check.resultNames t, x ∈ names ∨ k.MakesUp x)
      (assigned : ∀ a, t = .assignment a → Γ.Binds a.name) :
      k.Hands (t.envAfter false Γ) t.resultContext (Δ.give names)
        ((t.envAfter false Γ).give (Check.resultNames t)) :=
    .give t.names_resultContext known fun _ ↦ t.binds_resultNames assigned
  refine withName_yields (P := fun t ↦ k.Hands (t.envAfter false Γ) t.resultContext (Δ.give names)
    ((t.envAfter false Γ).give (Check.resultNames t))) (start s known assigned) ?_
  rintro t name - - - made
  exact start _ (List.forall_mem_singleton.2 (.inr made)) nofun

section

-- the theorems of the mutual block share the hypothesis, and some need it for the others only
set_option linter.unusedSectionVars false

variable {k : Expansion} {K : Knowledge} (branches : ∀ i, branchName i ∉ k.used)

include branches

mutual

/-- A session in a statement keeps what is handed down to it. -/
theorem Statement.canonical_sites {p : Place} {Γ Γ' : Env} {context : Context}
    {given given' : Given} (within : Γ.Within Γ') (hands : k.Hands Γ' context given given') :
    (s : Statement) → s.Valid K p Γ →
      k.Covers (Visit.opened outsideDefinitions (.statement s) (s.visits outsideDefinitions)) →
      Yields (fun t ↦ Corresponds Site.Keeps (s.sites Γ given) (t.sites Γ' given'))
        (s.canonical k context)
  | .comment _, _, _ | .importSkill _, _, _ | .agent _, _, _ | .throw _, _, _ => .pure .nil
  | .block ⟨_, params, body, _⟩, ⟨_, valid⟩, used => by
    obtain ⟨header, inside⟩ := (covers_opened rfl).1 used
    exact .bind (canonicalBody_sites rfl (within.enter .parameter rfl)
      (.nothing k _) body valid inside)
      fun _ h ↦ .pure h
  | .binding _ ⟨_, value, _⟩, ⟨valid, _⟩, used =>
    .bind (value.canonical_sites within hands valid ((covers_opened rfl).1 used).2) fun _ h ↦
      .pure h
  | .assignment ⟨_, value, _⟩, ⟨valid, _⟩, used =>
    .bind (value.canonical_sites within hands valid ((covers_opened rfl).1 used).2) fun _ h ↦
      .pure h
  | .action a, ⟨valid, _⟩, used =>
    .bind (a.canonical_sites within hands valid ((covers_opened rfl).1 used).2) fun _ h ↦ .pure h
  | .parallel ⟨_, _, _, _, body, _⟩, ⟨_, valid⟩, used =>
    .bind (canonicalBranches_sites rfl within hands 0 body valid ((covers_opened rfl).1 used).2)
      fun _ h ↦ .pure h
  | .repeated ⟨_, index, body, _⟩, valid, used => by
    obtain ⟨header, inside⟩ := (covers_opened rfl).1 used
    exact .bind (canonicalBody_sites rfl (within.enter .bodyLocal rfl) (hands.enter _ header) body
      valid inside) fun _ h ↦ .pure h
  | .forEach ⟨item, index, collection, _, _, _, body, _⟩, ⟨valid, _, inner⟩, used => by
    obtain ⟨header, inside⟩ := (covers_opened rfl).1 used
    obtain ⟨inside, later⟩ := covers_append.1 inside
    refine .bind (collection.canonical_sites within hands valid inside) fun _ first ↦ ?_
    exact .bind (canonicalBody_sites rfl (within.enter .bodyLocal rfl) (hands.enter _ header) body
      inner later) fun _ h ↦ .pure (first.append h)
  | .loop ⟨_, _, index, _, body, _⟩, valid, used => by
    obtain ⟨header, inside⟩ := (covers_opened rfl).1 used
    exact .bind (canonicalBody_sites rfl (within.enter .bodyLocal rfl) (hands.enter _ header) body
      valid (covers_append.1 inside).2) fun _ h ↦ .pure h
  | .attempt ⟨body, handler, cleanup, _⟩, ⟨valid, handled, cleaned⟩, used => by
    obtain ⟨header, inside⟩ := (covers_opened rfl).1 used
    obtain ⟨inside, last⟩ := covers_append.1 inside
    obtain ⟨first, second⟩ := covers_append.1 inside
    refine .bind (canonicalBody_sites rfl (within.enter .bodyLocal rfl) hands.enterPlain body valid
      first) fun _ hb ↦ ?_
    refine .bind (canonicalHandler_sites within hands handler handled header second) fun _ hh ↦ ?_
    exact .bind (canonicalClause_sites within hands cleanup cleaned last) fun _ hc ↦
      .pure ((hb.append hh).append hc)
  | .choice ⟨_, options, _⟩, valid, used => by
    obtain ⟨-, inside⟩ := (covers_opened rfl).1 used
    exact .bind (canonicalOptions_sites within hands options valid (covers_cons.1 inside).2)
      fun _ h ↦ .pure h
  | .conditional ⟨branches, otherwise, _⟩, ⟨valid, rest⟩, used => by
    obtain ⟨-, inside⟩ := (covers_opened rfl).1 used
    obtain ⟨first, second⟩ := covers_append.1 inside
    refine .bind (canonicalConditions_sites within hands branches valid first) fun _ hb ↦ ?_
    exact .bind (canonicalClause_sites within hands otherwise rest second) fun _ ho ↦
      .pure (hb.append ho)

/-- Sessions in the statements of a sequence keep what is handed down to them: what the sequence is
given, or the result of the statement before. -/
theorem canonicalBody_sites {p : Place} {Γ Γ' : Env} {context : Context} {given given' : Given}
    (sequence : p.isBranch = false) (within : Γ.Within Γ')
    (hands : k.Hands Γ' context given given') :
    (body : List Statement) → BodyValid K p Γ body →
      k.Covers (bodyVisits outsideDefinitions body) →
      Yields (fun body' ↦ Corresponds Site.Keeps (bodySites Γ given body)
        (bodySites Γ' given' body')) (canonicalBody k context body)
  | [], _, _ => .pure .nil
  | s :: body, ⟨valid, rest⟩, used => by
    obtain ⟨here, later⟩ := covers_bodyVisits.1 used
    have expanded := ((s.canonical_sites within hands valid here).and
      (s.canonical_within false within)).and ((s.canonical_like k context).and
      ((s.canonical_resultNames branches context).and (s.canonical_assigned sequence within valid)))
    refine .bind expanded fun t ⟨⟨first, grown⟩, like, same, assigned⟩ ↦ ?_
    have named := ((t.withName_sites first).and (t.withName_within grown)).and
      ((t.withName_like k).and (t.withName_hands (s.envAfter false Γ)
        (fun _ ↦ same.known) assigned))
    refine .bind named fun u ⟨⟨first', grown'⟩, like', result⟩ ↦ ?_
    have executable := like'.isExecutable.trans like.isExecutable
    have next : k.Hands (u.envAfter false Γ') (if u.isExecutable then u.resultContext else context)
        (if s.isExecutable then (s.envAfter false Γ).give (Check.resultNames s) else given)
        (if u.isExecutable then (u.envAfter false Γ').give (Check.resultNames u) else given') := by
      rw [executable]
      cases runs : s.isExecutable with
      | true => exact result
      | false =>
        rw [u.envAfter_of_not_isExecutable (executable.trans runs)]
        exact hands
    have following : (p.past s).isBranch = false := (p.isBranch_past s).trans sequence
    rw [sequence] at rest
    exact .bind (canonicalBody_sites following grown' next body rest later) fun _ h ↦
      .pure (first'.append h)

/-- Sessions in the branches of a parallel block keep what the block is given. -/
theorem canonicalBranches_sites {p : Place} {Γ Γ' : Env} {context : Context} {given given' : Given}
    (parallel : p.isBranch = true) (within : Γ.Within Γ')
    (hands : k.Hands Γ' context given given') (i : Nat) :
    (body : List Statement) → BodyValid K p Γ body →
      k.Covers (bodyVisits outsideDefinitions body) →
      Yields (fun body' ↦ Corresponds Site.Keeps (branchSites Γ given body)
          (branchSites Γ' given' body'))
        (canonicalBranches k context i body)
  | [], _, _ => .pure .nil
  | s :: body, ⟨valid, rest⟩, used => by
    obtain ⟨here, later⟩ := covers_bodyVisits.1 used
    have expanded := ((s.canonical_sites within hands valid here).and
      (s.canonical_within true within)).and (s.canonical_introduces k context)
    have following : (p.past s).isBranch = true := (p.isBranch_past s).trans parallel
    rw [parallel] at rest
    -- what is left to do for either form that the branch may take
    have after (i : Nat) (u : Statement)
        (first : Corresponds Site.Keeps (s.sites Γ given) (u.sites Γ' given'))
        (grown : (s.envAfter true Γ).Within (u.envAfter true Γ'))
        (same : u.introduces = s.introduces) :
        Yields (fun body' ↦ Corresponds Site.Keeps (branchSites Γ given (s :: body))
            (branchSites Γ' given' body'))
          (return u :: (← canonicalBranches k context i body)) := by
      have given := hands.past (Covers.introduces s here) fun x bound apart ↦
        u.locate_envAfter true bound (same ▸ apart)
      refine .bind (canonicalBranches_sites following grown given i body rest later) fun _ h ↦
        .pure ?_
      rw [branchSites, branchSites, same]
      exact first.append h
    refine .bind expanded fun t ⟨⟨first, grown⟩, same⟩ ↦ ?_
    split
    · have first' : Corresponds Site.Keeps (s.sites Γ given) ((t.asBranch i).sites Γ' given') := by
        apply t.asBranch_cases (P := fun u ↦ Corresponds Site.Keeps (s.sites Γ given)
          (u.sites Γ' given')) first
        rintro a rfl -
        exact first
      exact after (i + 1) _ first' (grown.asBranch i) ((t.introduces_asBranch i).trans same)
    · exact after i t first grown same

private theorem canonicalHandler_sites {p : Place} {Γ Γ' : Env} {context : Context}
    {given given' : Given} (within : Γ.Within Γ') (hands : k.Hands Γ' context given given') :
    (handler : Option Handler) → HandlerValid K p Γ handler →
      (∀ name ∈ ((handler.bind HandlerOf.error).map AsBinding.name).toList, name.val ∈ k.used) →
      k.Covers (handlerVisits outsideDefinitions handler) →
      Yields (fun handler' ↦ Corresponds Site.Keeps (handlerSites Γ given handler)
          (handlerSites Γ' given' handler'))
        (canonicalHandler k context handler)
  | none, _, _, _ => .pure .nil
  | some ⟨_, body, _⟩, valid, header, used =>
    .bind (canonicalBody_sites rfl (within.enter .bodyLocal rfl) (hands.enter _ header) body valid
      used) fun _ h ↦ .pure h

private theorem canonicalClause_sites {p : Place} {Γ Γ' : Env} {context : Context}
    {given given' : Given} (within : Γ.Within Γ') (hands : k.Hands Γ' context given given') :
    (clause : Option Body) → ClauseValid K p Γ clause →
      k.Covers (clauseVisits outsideDefinitions clause) →
      Yields (fun clause' ↦ Corresponds Site.Keeps (clauseSites Γ given clause)
          (clauseSites Γ' given' clause'))
        (canonicalClause k context clause)
  | none, _, _ => .pure .nil
  | some ⟨body, _⟩, valid, used =>
    .bind (canonicalBody_sites rfl (within.enter .bodyLocal rfl) hands.enterPlain body valid used)
      fun _ h ↦ .pure h

private theorem canonicalOptions_sites {p : Place} {Γ Γ' : Env} {context : Context}
    {given given' : Given} (within : Γ.Within Γ') (hands : k.Hands Γ' context given given') :
    (options : List ChoiceOption) → OptionsValid K p Γ options →
      k.Covers (optionVisits outsideDefinitions options) →
      Yields (fun options' ↦ Corresponds Site.Keeps (optionSites Γ given options)
          (optionSites Γ' given' options'))
        (canonicalOptions k context options)
  | [], _, _ => .pure .nil
  | ⟨_, body, _⟩ :: options, ⟨_, valid, rest⟩, used => by
    obtain ⟨inside, later⟩ := covers_append.1 used
    refine .bind (canonicalBody_sites rfl (within.enter .bodyLocal rfl) hands.enterPlain body valid
      (covers_cons.1 inside).2) fun _ first ↦ ?_
    exact .bind (canonicalOptions_sites within hands options rest later) fun _ h ↦
      .pure (first.append h)

private theorem canonicalConditions_sites {p : Place} {Γ Γ' : Env} {context : Context}
    {given given' : Given} (within : Γ.Within Γ') (hands : k.Hands Γ' context given given') :
    (branches : List Branch) → BranchesValid K p Γ branches →
      k.Covers (branchVisits outsideDefinitions branches) →
      Yields (fun branches' ↦ Corresponds Site.Keeps (conditionSites Γ given branches)
          (conditionSites Γ' given' branches'))
        (canonicalConditions k context branches)
  | [], _, _ => .pure .nil
  | ⟨_, _, body, _⟩ :: branches, ⟨valid, rest⟩, used => by
    obtain ⟨inside, later⟩ := covers_append.1 used
    refine .bind (canonicalBody_sites rfl (within.enter .bodyLocal rfl) hands.enterPlain body valid
      (covers_cons.1 inside).2) fun _ first ↦ ?_
    exact .bind (canonicalConditions_sites within hands branches rest later) fun _ h ↦
      .pure (first.append h)

/-- A session in an action keeps what is handed down to it. -/
theorem Action.canonical_sites {p : Place} {Γ Γ' : Env} {context : Context} {given given' : Given}
    (within : Γ.Within Γ') (hands : k.Hands Γ' context given given') :
    (a : Action) → a.Valid K p Γ →
      k.Covers (Visit.opened outsideDefinitions (.action a) (a.visits outsideDefinitions)) →
      Yields (fun b ↦ Corresponds Site.Keeps (a.sites Γ given) (b.sites Γ' given'))
        (a.canonical k context)
  | .session s, _, _ => .pure (.singleton (hands.keeps Γ s))
  | .pipe ⟨input, operations, _⟩, ⟨valid, rest⟩, used => by
    obtain ⟨-, inside⟩ := (covers_opened rfl).1 used
    obtain ⟨inside, later⟩ := covers_append.1 inside
    refine .bind (input.canonical_sites within hands valid inside) fun _ first ↦ ?_
    exact .bind (canonicalOperations_sites within operations rest later) fun _ h ↦
      .pure (first.append h)
  | .doBlock ⟨body, _⟩, valid, used => by
    obtain ⟨-, inside⟩ := (covers_opened rfl).1 used
    exact .bind (canonicalBody_sites rfl (within.enter .bodyLocal rfl) hands.enterPlain body valid
      inside) fun _ h ↦ .pure h
  | .invoke ⟨_, args, _⟩, ⟨valid, _⟩, used => by
    obtain ⟨-, inside⟩ := (covers_opened rfl).1 used
    exact .bind (canonicalValues_sites within hands args valid inside) fun _ h ↦ .pure h

/-- Sessions in pipe operations are handed the names that the operations introduce. -/
theorem canonicalOperations_sites {p : Place} {Γ Γ' : Env} (within : Γ.Within Γ') :
    (operations : List Operation) → OperationsValid K p Γ operations →
      k.Covers (operationVisits outsideDefinitions operations) →
      Yields (fun operations' ↦ Corresponds Site.Keeps (operationSites Γ operations)
          (operationSites Γ' operations'))
        (canonicalOperations k operations)
  | [], _, _ => .pure .nil
  | ⟨operator, item, accumulator, body, span⟩ :: operations, ⟨_, valid, rest⟩, used => by
    obtain ⟨inside, later⟩ := covers_append.1 used
    obtain ⟨-, inside⟩ := (covers_opened rfl).1 inside
    let o : Operation := ⟨operator, item, accumulator, [], span⟩
    let written : Operation := ⟨operator, some o.itemIdent, o.accumulatorIdent?, [], span⟩
    have same : written.names.map Located.val = o.names.map Located.val :=
      o.map_val_names_written []
    have hands : k.Hands (Γ'.enter .bodyLocal written.names) o.bodyContext
        ((Γ.enter .bodyLocal o.names).give (o.names.map Located.val))
        ((Γ'.enter .bodyLocal written.names).give (written.names.map Located.val)) := by
      apply Hands.give (o.map_val_bodyContext.trans same.symm)
      · exact fun x member ↦ .inl (same ▸ member)
      · exact fun x member ↦ (Env.binds_enter_iff (y := .made x)).2 (.inr member)
    refine .bind (canonicalBody_sites rfl (within.enter .bodyLocal same) hands body valid inside)
      fun _ first ↦ ?_
    exact .bind (canonicalOperations_sites within operations rest later) fun _ h ↦
      .pure (first.append h)

/-- A session in a value keeps what is handed down to it. -/
theorem Expr.canonical_sites {p : Place} {Γ Γ' : Env} {context : Context} {given given' : Given}
    (within : Γ.Within Γ') (hands : k.Hands Γ' context given given') :
    (e : Expr) → e.Valid K p Γ → k.Covers (e.visits outsideDefinitions) →
      Yields (fun x ↦ Corresponds Site.Keeps (e.sites Γ given) (x.sites Γ' given'))
        (e.canonical k context)
  | .action a, valid, used =>
    .bind (a.canonical_sites within hands valid used) fun _ h ↦ .pure h
  | .string _, _, _ | .number _, _, _ | .ident _, _, _ | .discretion _, _, _ => .pure .nil
  | .array ⟨items, _⟩, valid, used =>
    .bind (canonicalValues_sites within hands items valid (covers_cons.1 used).2) fun _ h ↦ .pure h
  | .object ⟨entries, _⟩, valid, used =>
    .bind (canonicalEntries_sites within hands entries valid (covers_cons.1 used).2) fun _ h ↦
      .pure h

private theorem canonicalValues_sites {p : Place} {Γ Γ' : Env} {context : Context}
    {given given' : Given} (within : Γ.Within Γ') (hands : k.Hands Γ' context given given') :
    (es : List Expr) → ValuesValid K p Γ es → k.Covers (valueVisits outsideDefinitions es) →
      Yields (fun es' ↦ Corresponds Site.Keeps (valueSites Γ given es) (valueSites Γ' given' es'))
        (canonicalValues k context es)
  | [], _, _ => .pure .nil
  | e :: es, ⟨valid, rest⟩, used => by
    obtain ⟨here, later⟩ := covers_append.1 used
    refine .bind (e.canonical_sites within hands valid here) fun _ first ↦ ?_
    exact .bind (canonicalValues_sites within hands es rest later) fun _ h ↦ .pure (first.append h)

private theorem canonicalEntries_sites {p : Place} {Γ Γ' : Env} {context : Context}
    {given given' : Given} (within : Γ.Within Γ') (hands : k.Hands Γ' context given given') :
    (entries : List Entry) → EntriesValid K p Γ entries →
      k.Covers (entryVisits outsideDefinitions entries) →
      Yields (fun entries' ↦ Corresponds Site.Keeps (entrySites Γ given entries)
          (entrySites Γ' given' entries'))
        (canonicalEntries k context entries)
  | [], _, _ => .pure .nil
  | ⟨_, some value⟩ :: entries, ⟨valid, rest⟩, used => by
    obtain ⟨here, later⟩ := covers_append.1 used
    refine .bind (value.canonical_sites within hands valid here) fun _ first ↦ ?_
    exact .bind (canonicalEntries_sites within hands entries rest later) fun _ h ↦
      .pure (first.append h)
  | ⟨_, none⟩ :: entries, ⟨_, rest⟩, used =>
    .bind (canonicalEntries_sites within hands entries rest (covers_cons.1 used).2) fun _ h ↦
      .pure h

end

end

/-! ## Programs -/

/-- In the canonical form of a valid program, sessions keep what is handed down to them. -/
theorem Program.canonical_sites {options : ValidatorOptions} {p : Program} (valid : p.Valid options)
    (branches : ∀ i, branchName i ∉ p.boundNames) :
    Corresponds Site.Keeps p.sites p.canonical.sites := by
  have start : Env.Within [Env.emptyScope] [Env.emptyScope] := fun _ bound ↦ bound
  exact canonicalBody_sites branches rfl start (.nothing _ _) p.statements valid.statements
    (covers_ofProgram p) 0

/-- What a session without a context is given where a valid program is compiled is what is handed
down to it, and each name stands for the binding that it stands for where it comes from, unless one
of the names has been declared on the way down. The program must not bind a name that expansion
gives to branches. -/
theorem compile_context_resolves (p : Program) (options : CompileOptions)
    (validation : ValidatorOptions) (c : Compiled) (valid : (validate p validation).isValid = true)
    (branches : ∀ i, branchName i ∉ p.boundNames) (compiled : compile p options = .ok c) :
    Corresponds Site.Keeps p.sites c.program.sites := by
  rw [validate_isValid_iff] at valid
  rw [compile_program compiled]
  split
  · rw [← p.sites_withoutComments]
    apply Program.canonical_sites (Program.valid_withoutComments valid)
    rwa [Program.boundNames_withoutComments]
  · exact Program.canonical_sites valid branches

/-- Where nothing that is handed down is declared anew, every session gets what the one before it
gives. -/
theorem compile_context_resolves_review :
    let source := "let draft = session \"a\"\nfor topic in [1]:\n  session \"b {topic}\"\n  session \"c\"\n"
    let p := (parse source).program
    (validate p {}).isValid = true ∧ (∀ i, branchName i ∉ p.boundNames)
      ∧ (∀ site ∈ p.sites, site.given.Intact)
      ∧ ∃ c, compile p {} = .ok c ∧ Corresponds Site.Keeps p.sites c.program.sites := by
  intro source p
  have valid : (validate p {}).isValid = true := by decide +kernel
  have branches (i : Nat) : branchName i ∉ p.boundNames := by
    have names : p.boundNames = ["draft", "topic"] := by decide +kernel
    rw [names]
    exact branchName_notMem (by decide) i
  exact ⟨valid, branches, by decide +kernel, _, rfl,
    compile_context_resolves p {} {} _ valid branches rfl⟩

/-- A loop may name its variable like the result that is handed down past it. The session in the
loop is given the variable. -/
theorem compiled_context_captured :
    let p := (parse "let x = session \"a\"\nfor x in [1]:\n  session \"b\"\n").program
    (parse "let x = session \"a\"\nfor x in [1]:\n  session \"b\"\n").hasErrors = false
      ∧ (validate p {}).isValid = true
      ∧ ∃ c, compile p {} = .ok c
        ∧ ¬ Corresponds (fun site site' ↦ site.session.context.isImplicit = true → site'.Resolves)
          p.sites c.program.sites :=
  ⟨by decide +kernel, by decide +kernel, _, rfl, fun h ↦ absurd h.each (by decide +kernel)⟩

end ProseLang
