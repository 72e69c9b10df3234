import ProseLang.Canonical.Compilation
import ProseLang.Grammar.Parsing
import ProseLang.Proofs.Canonical.Bindings
import ProseLang.Proofs.Canonical.Explicit
import ProseLang.Proofs.Canonical.Validity
import ProseLang.Proofs.Validation.Unused

/-!
# Unused bindings after expansion

Expansion writes into every session without a context the names that are handed down to it. So what
the canonical form of a program says about the use of names is what the program says, if being
handed down counts as being used (`Program.canonical_usages`), and the canonical form is warned
about for the bindings that nothing uses in this sense (`Program.unused_canonical`). A check of the
program itself counts what it takes to be used instead. It warns about no other bindings, but it
overlooks some (`validate_canonical_unused`, `overlooked_result_of_pipe`).
-/

namespace ProseLang

open Check (outsideSessions)
open Expansion

/-! ## Names in use -/

/-- Apart from names that are made up, names stand for the same let and const bindings, and so do
those among lists of the same names. -/
theorem Expansion.SameNames.held {k : Expansion} {names names' : List String} {Γ Γ' : Env}
    (same : k.SameNames names names') (mirrors : Γ.Mirrors k Γ') (n : Nat) (x : String) :
    x ∈ names' ∧ Γ'.holder? x = some n ↔ x ∈ names ∧ Γ.holder? x = some n := by
  rw [mirrors.holder? x]
  refine and_congr_left fun held ↦ same x fun made ↦ ?_
  rw [(mirrors.holder?_made made).1] at held
  cases held

/-- Something is said of a name, and something else besides. -/
theorem exists_eq_and {P : String → Prop} {Q : Prop} {x : String} :
    (∃ name, P name ∧ name = x ∧ Q) ↔ P x ∧ Q := by
  constructor
  · rintro ⟨name, h, rfl, q⟩
    exact ⟨h, q⟩
  · rintro ⟨h, q⟩
    exact ⟨x, h, rfl, q⟩

namespace Usage

/-- Whether what counts among the usages of a part of a canonical program is what would count in the
original one if all contexts were written. -/
structure Similar (us us' : List Usage) : Prop where
  counts : ∀ n x, (∃ u ∈ us', u.Seen n x) ↔ ∃ u ∈ us, u.Due n x
  leaves : ∀ x, (∃ u ∈ us', u.Leaves Seen x) ↔ ∃ u ∈ us, u.Leaves Due x

namespace Similar

variable {k : Expansion} {Γ Γ' : Env} {us us' vs vs' : List Usage} {names names' : List String}

private theorem nil : Similar [] [] := ⟨fun _ _ ↦ by simp, fun _ ↦ by simp⟩

private theorem append (h : Similar us us') (h' : Similar vs vs') :
    Similar (us ++ vs) (us' ++ vs') where
  counts n x := by rw [exists_mem_append, exists_mem_append, h.counts n x, h'.counts n x]
  leaves x := by rw [exists_mem_append, exists_mem_append, h.leaves x, h'.leaves x]

/-- Names that are used. -/
theorem uses (same : k.SameNames names names') (mirrors : Γ.Mirrors k Γ') :
    Similar (names.map (.use Γ)) (names'.map (.use Γ')) where
  counts n x := by
    simp only [exists_mem_map, seen_use, due_use, exists_eq_and]
    exact same.held mirrors n x
  leaves x := by simp only [exists_mem_map, not_leaves_use, and_false, exists_false]

/-- What a session without a context is given is written as its context. -/
theorem handed {given : Given} (same : k.SameNames (given.names.map Prod.fst) names)
    (mirrors : Γ.Mirrors k Γ') : Similar [.handed Γ given] (names.map (.use Γ')) where
  counts n x := by
    simp only [exists_mem_map, seen_use, exists_eq_and, List.mem_singleton, exists_eq_left,
      due_handed]
    exact same.held mirrors n x
  leaves x := by
    simp only [exists_mem_map, not_leaves_use, List.mem_singleton, exists_eq_left,
      not_leaves_handed, and_false, exists_false]

/-- What is only taken to be used is not written. -/
theorem implied {isImplied : Prop} [Decidable isImplied] :
    Similar (if isImplied then names.map (.implied Γ) else []) [] := by
  split
  · refine ⟨fun n x ↦ ?_, fun x ↦ ?_⟩ <;> rw [exists_mem_map] <;> simp
  · exact nil

/-- The end of a scope. -/
theorem closing (h : Similar us us') (mirrors : Γ.Mirrors k Γ') :
    Similar (Usage.closing Γ us) (Usage.closing Γ' us') where
  counts n x := by
    rw [Usage.closing, Usage.closing, exists_mem_append, exists_mem_append, h.counts n x]
    simp
  leaves x := by
    have depth : Γ'.tail.length = Γ.tail.length := by
      rw [List.length_tail, List.length_tail, mirrors.length]
    rw [Usage.closing, Usage.closing, exists_mem_append, exists_mem_append, h.leaves x]
    simp only [List.mem_singleton, exists_eq_left, leaves_ends, mirrors.declares x, depth, h.counts]

private theorem idents (mirrors : Γ.Mirrors k Γ') (names : List Ident) :
    Similar (names.map fun name ↦ .use Γ name.val) (names.map fun name ↦ .use Γ' name.val) := by
  have same (Δ : Env) : (names.map fun name ↦ .use Δ name.val)
      = (names.map Located.val).map (Usage.use Δ) := List.map_map.symm
  rw [same, same]
  exact uses (.refl _) mirrors

/-- The string, if there is one. -/
theorem strings (mirrors : Γ.Mirrors k Γ') (s : Option StringLit) :
    Similar (s.toList.flatMap (StringLit.usages Γ)) (s.toList.flatMap (StringLit.usages Γ')) := by
  cases s with
  | none => exact nil
  | some s =>
    rw [Option.toList_some, List.flatMap_singleton, List.flatMap_singleton]
    exact idents mirrors s.interpolations

end Similar

end Usage

/-! ## One step of expansion -/

/-- Whether a context that is written has the names that are handed down in the original program,
and the scopes of the canonical program mirror those of the original one. -/
structure Expansion.Follows (k : Expansion) (Γ Γ' : Env) (context : Context) (given : Given) :
    Prop where
  mirrors : Γ.Mirrors k Γ'
  written : context.isImplicit = false
  names : k.SameNames (given.names.map Prod.fst) (context.names.map Located.val)

namespace Expansion.Follows

variable {k : Expansion} {Γ Γ' Δ Δ' : Env} {context : Context} {given : Given}

private theorem nothing (mirrors : Γ.Mirrors k Γ') : k.Follows Γ Γ' .empty {} :=
  ⟨mirrors, rfl, .refl []⟩

/-- The start of what is handed down. -/
theorem give {names : List String} (mirrors : Γ.Mirrors k Γ') (written : context.isImplicit = false)
    (same : k.SameNames names (context.names.map Located.val)) :
    k.Follows Γ Γ' context (Δ.give names) := by
  refine ⟨mirrors, written, ?_⟩
  rwa [Env.give, List.map_map, Function.comp_def, List.map_id']

/-- Another place to which the same is handed down. -/
theorem past (h : k.Follows Γ Γ' context given) (mirrors : Δ.Mirrors k Δ') (names : List String) :
    k.Follows Δ Δ' context (given.past names) := ⟨mirrors, h.written, h.names⟩

/-- A scope that starts with names in use. -/
theorem enter (h : k.Follows Γ Γ' context given) {names : List Ident}
    (used : ∀ name ∈ names, name.val ∈ k.used) :
    k.Follows (Γ.enter .bodyLocal names) (Γ'.enter .bodyLocal names) context
      (given.past (names.map Located.val)) :=
  h.past (h.mirrors.enter rfl rfl fun name member ↦ not_makesUp_of_mem (used name member)) _

/-- A scope that starts with no names. -/
theorem enterPlain (h : k.Follows Γ Γ' context given) :
    k.Follows (Γ.enter .bodyLocal []) (Γ'.enter .bodyLocal []) context given :=
  ⟨h.mirrors.enter rfl rfl fun _ member ↦ absurd member List.not_mem_nil, h.written, h.names⟩

/-- A session with everything written out. -/
theorem session (h : k.Follows Γ Γ' context given)
    (prompts : ∀ a ∈ k.agents, ∀ x, a.prompt = some x → x.interpolations = []) (given' : Given)
    (s : Session) :
    Usage.Similar (SessionOf.usages Γ given s)
    (SessionOf.usages Γ' given' (k.session context s)) := by
  have settled : (k.withAgent s).context = s.context := by
    rw [withAgent]
    split <;> rfl
  have closed : (k.session context s).context.isImplicit = false :=
    (k.session_settled s h.written).context
  have prompt : Usage.Similar (s.prompt.toList.flatMap (StringLit.usages Γ))
      ((k.session context s).prompt.toList.flatMap (StringLit.usages Γ')) := by
    change Usage.Similar _ ((k.withAgent s).prompt.toList.flatMap (StringLit.usages Γ'))
    rw [withAgent]
    split
    · exact .strings h.mirrors s.prompt
    · next a found =>
      cases own : s.prompt with
      | some x => exact .strings h.mirrors (some x)
      | none =>
        cases given : a.prompt with
        | none => exact .nil
        | some x =>
          -- the prompt of the agent has no names in it
          obtain ⟨name, -, first⟩ := Option.bind_eq_some_iff.1 found
          have bare := prompts a (List.mem_of_find?_eq_some first) x given
          change Usage.Similar [] ([x].flatMap (StringLit.usages Γ'))
          rw [List.flatMap_singleton, StringLit.usages, bare]
          exact .nil
  have context : Usage.Similar
      ((s.context.names.map fun name ↦ .use Γ name.val)
        ++ if s.context.isImplicit then [.handed Γ given] else [])
      ((k.session context s).context.names.map fun name ↦ .use Γ' name.val) := by
    have is : (k.session context s).context
      = if s.context.isImplicit then context else s.context := by
      rw [Expansion.session, settled]
    rw [is]
    cases own : s.context with
    | implicit =>
      have handed := Usage.Similar.handed h.names h.mirrors
      rw [List.map_map] at handed
      exact handed
    | _ =>
      rw [if_neg (by simp [Context.isImplicit]), if_neg (by simp [Context.isImplicit]),
        List.append_nil]
      exact .idents h.mirrors _
  rw [SessionOf.usages, SessionOf.usages, closed, if_neg Bool.false_ne_true, List.append_nil,
    List.append_assoc]
  exact prompt.append context

/-- The end of a sequence of statements. -/
theorem last (h : k.Follows Γ Γ' context given) (p : Place) {before before' : List String}
    (same : k.SameNames before before') {given' : Given} :
    Usage.Similar (bodyUsages p Γ before given []) (bodyUsages p Γ' before' given' []) := by
  rw [bodyUsages, bodyUsages]
  split
  · exact .uses same h.mirrors
  · exact .nil

end Expansion.Follows

/-- Whether a statement of a canonical program says about the use of names what the original one
says, and leaves the statements that follow in the same position. -/
structure Statement.Turns (k : Expansion) (p : Place) (Γ Γ' : Env) (given given' : Given)
    (s t : Statement) : Prop where
  usages : Usage.Similar (s.usages p Γ given) (t.usages p Γ' given')
  after : (s.envAfter p.isBranch Γ).Mirrors k (t.envAfter p.isBranch Γ')
  like : s.Like t
  result : k.SameNames (Check.resultNames s) (Check.resultNames t)
  closed : Closed (t.visits outsideSessions)

namespace Statement.Turns

variable {k : Expansion} {p : Place} {Γ Γ' : Env} {context : Context} {given given' : Given}
  {s t : Statement}

/-- The name of its result makes no difference to a statement of a sequence. -/
theorem withName (h : Turns k p Γ Γ' given given' s t) :
    Yields (Turns k p Γ Γ' given given' s) (t.withName k) := by
  refine withName_yields (P := Turns k p Γ Γ' given given' s) h ?_
  rintro x name rfl unnamed - made
  obtain ⟨usages, after, ⟨runs, past⟩, result, closed⟩ := h
  have unnamed : (Action.session x).resultName? = none := unnamed
  rw [envAfter_action, unnamed] at after
  rw [Check.resultNames_action, unnamed] at result
  refine ⟨usages, after.bindMade made rfl, ⟨runs, past⟩, result.trans (.made made), ?_⟩
  have here : Check.isOpenSession (.action (.session x)) = false := closed _ List.mem_cons_self
  exact List.forall_mem_cons.2 ⟨here, nofun⟩

/-- The name of its result makes no difference to a branch. -/
theorem asBranch (h : Turns k p Γ Γ' given given' s t) (parallel : p.isBranch = true)
    (branches : ∀ i, branchName i ∉ k.used) (i : Nat) :
    Turns k p Γ Γ' given given' s (t.asBranch i) := by
  have after : (s.envAfter p.isBranch Γ).Mirrors k ((t.asBranch i).envAfter p.isBranch Γ') := by
    have kept := h.after
    rw [parallel] at kept ⊢
    exact kept.asBranch branches i
  have like : s.Like (t.asBranch i) :=
    ⟨(t.asBranch_like i).isExecutable.trans h.like.isExecutable,
      fun p ↦ ((t.asBranch_like i).past p).trans (h.like.past p)⟩
  have rest : Usage.Similar (s.usages p Γ given) ((t.asBranch i).usages p Γ' given')
      ∧ k.SameNames (Check.resultNames s) (Check.resultNames (t.asBranch i))
      ∧ Closed ((t.asBranch i).visits outsideSessions) := by
    apply t.asBranch_cases (P := fun u ↦ Usage.Similar (s.usages p Γ given) (u.usages p Γ' given')
      ∧ k.SameNames (Check.resultNames s) (Check.resultNames u) ∧ Closed (u.visits outsideSessions))
      ⟨h.usages, h.result, h.closed⟩
    rintro a rfl unnamed
    have result := h.result
    rw [Check.resultNames_action, unnamed] at result
    exact ⟨h.usages, result.trans (.made ⟨branches i, .inr ⟨i, rfl⟩⟩), h.closed⟩
  exact ⟨rest.1, after, like, rest.2.1, rest.2.2⟩

/-- What a statement of a sequence hands on. -/
theorem follows (h : Turns k p Γ Γ' given given' s t) (hands : k.Follows Γ Γ' context given)
    (sequence : p.isBranch = false) :
    k.Follows (s.envAfter p.isBranch Γ) (t.envAfter p.isBranch Γ')
      (if t.isExecutable then t.resultContext else context)
      (if p.isBranch then given.past s.introduces
        else if s.isExecutable then (s.envAfter p.isBranch Γ).give
        (Check.resultNames s) else given) := by
  rw [if_neg (Bool.eq_false_iff.1 sequence), h.like.isExecutable]
  split
  · exact .give h.after t.resultContext_not_implicit (t.names_resultContext ▸ h.result)
  · exact ⟨h.after, hands.written, hands.names⟩

/-- What a branch leaves to those that follow it. -/
theorem branchFollows (h : Turns k p Γ Γ' given given' s t) (hands : k.Follows Γ Γ' context given)
    (parallel : p.isBranch = true) :
    k.Follows (s.envAfter p.isBranch Γ) (t.envAfter p.isBranch Γ') context
      (if p.isBranch then given.past s.introduces
        else if s.isExecutable then (s.envAfter p.isBranch Γ).give
        (Check.resultNames s) else given) := by
  rw [if_pos parallel]
  exact hands.past h.after _

/-- The names of the result before what follows. -/
theorem before (h : Turns k p Γ Γ' given given' s t) {before before' : List String}
    (same : k.SameNames before before') :
    k.SameNames (if s.isExecutable then Check.resultNames s else before)
      (if t.isExecutable then Check.resultNames t else before') := by
  rw [h.like.isExecutable]
  split
  · exact h.result
  · exact same

/-- What a statement and those that follow it say. -/
theorem cons (h : Turns k p Γ Γ' given given' s t) {before before' : List String}
    {body body' : List Statement}
    (rest : Usage.Similar
      (bodyUsages (p.past s) (s.envAfter p.isBranch Γ)
        (if s.isExecutable then Check.resultNames s else before)
        (if p.isBranch then given.past s.introduces
          else if s.isExecutable then (s.envAfter p.isBranch Γ).give
          (Check.resultNames s) else given)
        body)
      (bodyUsages (p.past s) (t.envAfter p.isBranch Γ')
        (if t.isExecutable then Check.resultNames t else before')
        (if p.isBranch then given'.past t.introduces
          else if t.isExecutable then (t.envAfter p.isBranch Γ').give
          (Check.resultNames t) else given')
        body')) :
    Usage.Similar (bodyUsages p Γ before given (s :: body))
      (bodyUsages p Γ' before' given' (t :: body')) := by
  rw [bodyUsages, bodyUsages, h.closed.seesPredecessor, Bool.and_false, if_neg Bool.false_ne_true,
    h.like.past]
  exact (Usage.Similar.implied.append h.usages).append rest

end Statement.Turns

/-! ## The tree -/

section

-- the theorems of the mutual block share the hypothesis, and some need it for the others only
set_option linter.unusedSectionVars false

variable {k : Expansion} {K : Knowledge} (suits : k.Suits K)

include suits

/-- A statement and its canonical form. -/
theorem Statement.canonical_turns {p : Place} {Γ Γ' : Env} {context : Context}
    {given given' : Given}
    (follows : k.Follows Γ Γ' context given) {s : Statement} (valid : s.Valid K p Γ)
    (used : k.Covers (Visit.opened outsideDefinitions (.statement s) (s.visits outsideDefinitions)))
    (usages : Yields (fun t ↦ Usage.Similar (s.usages p Γ given) (t.usages p Γ' given'))
      (s.canonical k context)) :
    Yields (s.Turns k p Γ Γ' given given') (s.canonical k context) := fun n ↦
  { usages := usages n
    after := s.canonical_mirrors suits.branches _ follows.mirrors used n
    like := s.canonical_like k context n
    result := s.canonical_resultNames suits.branches context n
    closed := s.canonical_closed follows.written valid n }

/-- A body with a scope of its own. -/
theorem canonicalBody_closing {Γ Γ' : Env} {context : Context} {body : List Statement}
    {us : List Usage} {walk : List Statement → List Usage} (mirrors : Γ.Mirrors k Γ')
    (used : k.Covers (bodyVisits outsideDefinitions body))
    (inner : Yields (fun body' ↦ Usage.Similar us (walk body')) (canonicalBody k context body)) :
    Yields (fun body' ↦ Usage.Similar (Usage.closing (bodyEnvAfter false Γ body) us)
        (Usage.closing (bodyEnvAfter false Γ' body') (walk body')))
      (canonicalBody k context body) :=
  fun n ↦ (inner n).closing (canonicalBody_mirrors suits.branches mirrors used n)

mutual

/-- A statement says about the use of names what it says after expansion. -/
theorem Statement.canonical_usages {p : Place} {Γ Γ' : Env} {context : Context}
    {given given' : Given} (follows : k.Follows Γ Γ' context given) :
    (s : Statement) → s.Valid K p Γ →
      k.Covers (Visit.opened outsideDefinitions (.statement s) (s.visits outsideDefinitions)) →
      Yields (fun t ↦ Usage.Similar (s.usages p Γ given) (t.usages p Γ' given'))
        (s.canonical k context)
  | .comment _, _, _ | .importSkill _, _, _ | .agent _, _, _ => .pure .nil
  | .throw ⟨message, _⟩, _, _ => .pure (.strings follows.mirrors message)
  | .block ⟨_, params, body, _⟩, ⟨_, valid⟩, used => by
    obtain ⟨header, inside⟩ := (covers_opened rfl).1 used
    have entered : (Γ.enter .parameter params).Mirrors k (Γ'.enter .parameter params) :=
      follows.mirrors.enter rfl rfl fun name member ↦
        not_makesUp_of_mem (header name (List.mem_cons_of_mem _ member))
    exact .bind (canonicalBody_closing suits entered inside
      (canonicalBody_usages rfl (.nothing entered) (.refl []) body valid inside)) fun _ h ↦ .pure h
  | .binding _ ⟨_, value, _⟩, ⟨valid, _⟩, used =>
    .bind (value.canonical_usages follows valid ((covers_opened rfl).1 used).2) fun _ h ↦ .pure h
  | .assignment ⟨_, value, _⟩, ⟨valid, _⟩, used =>
    .bind (value.canonical_usages follows valid ((covers_opened rfl).1 used).2) fun _ h ↦ .pure h
  | .action a, ⟨valid, _⟩, used =>
    .bind (a.canonical_usages follows valid ((covers_opened rfl).1 used).2) fun _ h ↦ .pure h
  | .parallel ⟨_, _, _, _, body, _⟩, ⟨_, valid⟩, used =>
    .bind (canonicalBranches_usages rfl follows (.refl []) 0 body valid
      ((covers_opened rfl).1 used).2)
      fun _ h ↦ .pure h
  | .repeated ⟨_, index, body, _⟩, valid, used => by
    obtain ⟨header, inside⟩ := (covers_opened rfl).1 used
    exact .bind (canonicalBody_closing suits (follows.enter header).mirrors inside
      (canonicalBody_usages rfl (follows.enter header) (.refl []) body valid inside)) fun _ h ↦
        .pure h
  | .forEach ⟨item, index, collection, _, _, _, body, _⟩, ⟨valid, _, rest⟩, used => by
    obtain ⟨header, inside⟩ := (covers_opened rfl).1 used
    obtain ⟨inside, later⟩ := covers_append.1 inside
    exact .bind (collection.canonical_usages follows valid inside) fun _ first ↦
      .bind (canonicalBody_closing suits (follows.enter header).mirrors later
        (canonicalBody_usages rfl (follows.enter header) (.refl []) body rest later)) fun _ h ↦
          .pure (first.append h)
  | .loop ⟨_, _, index, _, body, _⟩, valid, used => by
    obtain ⟨header, inside⟩ := (covers_opened rfl).1 used
    have later := (covers_append.1 inside).2
    exact .bind (canonicalBody_closing suits (follows.enter header).mirrors later
      (canonicalBody_usages rfl (follows.enter header) (.refl []) body valid later)) fun _ h ↦
        .pure h
  | .attempt ⟨body, handler, cleanup, _⟩, ⟨valid, handled, cleaned⟩, used => by
    obtain ⟨header, inside⟩ := (covers_opened rfl).1 used
    obtain ⟨inside, last⟩ := covers_append.1 inside
    obtain ⟨first, second⟩ := covers_append.1 inside
    exact .bind (canonicalBody_closing suits follows.enterPlain.mirrors first
      (canonicalBody_usages rfl follows.enterPlain (.refl []) body valid first)) fun _ hb ↦
        .bind (canonicalHandler_usages follows handler handled header second) fun _ hh ↦
          .bind (canonicalClause_usages follows cleanup cleaned last) fun _ hc ↦
            .pure ((hb.append hh).append hc)
  | .choice ⟨_, options, _⟩, valid, used => by
    obtain ⟨-, inside⟩ := (covers_opened rfl).1 used
    exact .bind (canonicalOptions_usages follows options valid (covers_cons.1 inside).2)
      fun _ h ↦ .pure h
  | .conditional ⟨branches, otherwise, _⟩, ⟨valid, rest⟩, used => by
    obtain ⟨-, inside⟩ := (covers_opened rfl).1 used
    obtain ⟨first, second⟩ := covers_append.1 inside
    exact .bind (canonicalConditions_usages follows branches valid first) fun _ hb ↦
      .bind (canonicalClause_usages follows otherwise rest second) fun _ ho ↦ .pure (hb.append ho)

/-- The statements of a sequence, each of which is given the result of the one before. -/
theorem canonicalBody_usages {p : Place} {Γ Γ' : Env} {context : Context} {given given' : Given}
    {before before' : List String} (sequence : p.isBranch = false)
    (follows : k.Follows Γ Γ' context given) (same : k.SameNames before before') :
    (body : List Statement) → BodyValid K p Γ body →
      k.Covers (bodyVisits outsideDefinitions body) →
      Yields (fun body' ↦ Usage.Similar (bodyUsages p Γ before given body)
          (bodyUsages p Γ' before' given' body'))
        (canonicalBody k context body)
  | [], _, _ => .pure (follows.last p same)
  | s :: body, ⟨valid, rest⟩, used => by
    obtain ⟨here, later⟩ := covers_bodyVisits.1 used
    have turned : Yields (s.Turns k p Γ Γ' given given') (s.canonical k context) :=
      s.canonical_turns suits follows valid here (s.canonical_usages follows valid here)
    refine .bind turned fun t ht ↦ .bind ht.withName fun u hu ↦ ?_
    have following : (p.past s).isBranch = false := (p.isBranch_past s).trans sequence
    exact .bind (canonicalBody_usages following (hu.follows follows sequence)
      (hu.before same) body rest later) fun _ h ↦ .pure (hu.cons h)

/-- The branches of a parallel block, which are all given what the block is given. -/
theorem canonicalBranches_usages {p : Place} {Γ Γ' : Env} {context : Context} {given given' : Given}
    {before before' : List String} (parallel : p.isBranch = true)
    (follows : k.Follows Γ Γ' context given) (same : k.SameNames before before') (i : Nat) :
    (body : List Statement) → BodyValid K p Γ body →
      k.Covers (bodyVisits outsideDefinitions body) →
      Yields (fun body' ↦ Usage.Similar (bodyUsages p Γ before given body)
          (bodyUsages p Γ' before' given' body'))
        (canonicalBranches k context i body)
  | [], _, _ => .pure (follows.last p same)
  | s :: body, ⟨valid, rest⟩, used => by
    obtain ⟨here, later⟩ := covers_bodyVisits.1 used
    have turned : Yields (s.Turns k p Γ Γ' given given') (s.canonical k context) :=
      s.canonical_turns suits follows valid here (s.canonical_usages follows valid here)
    refine .bind turned fun t ht ↦ ?_
    have following : (p.past s).isBranch = true := (p.isBranch_past s).trans parallel
    split
    · have hu := ht.asBranch parallel suits.branches i
      exact .bind (canonicalBranches_usages following (hu.branchFollows follows parallel)
        (hu.before same) (i + 1) body rest later) fun _ h ↦ .pure (hu.cons h)
    · exact .bind (canonicalBranches_usages following (ht.branchFollows follows parallel)
        (ht.before same) i body rest later) fun _ h ↦ .pure (ht.cons h)

private theorem canonicalHandler_usages {p : Place} {Γ Γ' : Env} {context : Context}
    {given given' : Given} (follows : k.Follows Γ Γ' context given) :
    (handler : Option Handler) → HandlerValid K p Γ handler →
      (∀ name ∈ ((handler.bind HandlerOf.error).map AsBinding.name).toList, name.val ∈ k.used) →
      k.Covers (handlerVisits outsideDefinitions handler) →
      Yields (fun handler' ↦ Usage.Similar (handlerUsages p Γ given handler)
          (handlerUsages p Γ' given' handler'))
        (canonicalHandler k context handler)
  | none, _, _, _ => .pure .nil
  | some ⟨_, body, _⟩, valid, header, used => by
    exact .bind (canonicalBody_closing suits (follows.enter header).mirrors used
      (canonicalBody_usages rfl (follows.enter header) (.refl []) body valid used)) fun _ h ↦
        .pure h

private theorem canonicalClause_usages {p : Place} {Γ Γ' : Env} {context : Context}
    {given given' : Given} (follows : k.Follows Γ Γ' context given) :
    (clause : Option Body) → ClauseValid K p Γ clause →
      k.Covers (clauseVisits outsideDefinitions clause) →
      Yields (fun clause' ↦ Usage.Similar (clauseUsages p Γ given clause)
          (clauseUsages p Γ' given' clause'))
        (canonicalClause k context clause)
  | none, _, _ => .pure .nil
  | some ⟨body, _⟩, valid, used => by
    exact .bind (canonicalBody_closing suits follows.enterPlain.mirrors used
      (canonicalBody_usages rfl follows.enterPlain (.refl []) body valid used)) fun _ h ↦ .pure h

private theorem canonicalOptions_usages {p : Place} {Γ Γ' : Env} {context : Context}
    {given given' : Given} (follows : k.Follows Γ Γ' context given) :
    (options : List ChoiceOption) → OptionsValid K p Γ options →
      k.Covers (optionVisits outsideDefinitions options) →
      Yields (fun options' ↦ Usage.Similar (optionUsages p Γ given options)
          (optionUsages p Γ' given' options'))
        (canonicalOptions k context options)
  | [], _, _ => .pure .nil
  | ⟨label, body, _⟩ :: options, ⟨_, valid, rest⟩, used => by
    obtain ⟨inside, later⟩ := covers_append.1 used
    have inside := (covers_cons.1 inside).2
    have labelled := Usage.Similar.idents follows.mirrors label.interpolations
    exact .bind (canonicalBody_closing suits follows.enterPlain.mirrors inside
      (canonicalBody_usages rfl follows.enterPlain (.refl []) body valid inside)) fun _ first ↦
        .bind (canonicalOptions_usages follows options rest later) fun _ h ↦
          .pure ((labelled.append first).append h)

private theorem canonicalConditions_usages {p : Place} {Γ Γ' : Env} {context : Context}
    {given given' : Given} (follows : k.Follows Γ Γ' context given) :
    (branches : List Branch) → BranchesValid K p Γ branches →
      k.Covers (branchVisits outsideDefinitions branches) →
      Yields (fun branches' ↦ Usage.Similar (conditionUsages p Γ given branches)
          (conditionUsages p Γ' given' branches'))
        (canonicalConditions k context branches)
  | [], _, _ => .pure .nil
  | ⟨_, _, body, _⟩ :: branches, ⟨valid, rest⟩, used => by
    obtain ⟨inside, later⟩ := covers_append.1 used
    have inside := (covers_cons.1 inside).2
    exact .bind (canonicalBody_closing suits follows.enterPlain.mirrors inside
      (canonicalBody_usages rfl follows.enterPlain (.refl []) body valid inside)) fun _ first ↦
        .bind (canonicalConditions_usages follows branches rest later) fun _ h ↦
          .pure (first.append h)

private theorem Action.canonical_usages {p : Place} {Γ Γ' : Env} {context : Context}
    {given given' : Given} (follows : k.Follows Γ Γ' context given) :
    (a : Action) → a.Valid K p Γ →
      k.Covers (Visit.opened outsideDefinitions (.action a) (a.visits outsideDefinitions)) →
      Yields (fun b ↦ Usage.Similar (a.usages p Γ given) (b.usages p Γ' given'))
        (a.canonical k context)
  | .session s, _, _ => .pure (follows.session suits.prompts given' s)
  | .pipe ⟨input, operations, _⟩, ⟨valid, rest⟩, used => by
    obtain ⟨-, inside⟩ := (covers_opened rfl).1 used
    obtain ⟨inside, later⟩ := covers_append.1 inside
    exact .bind (input.canonical_usages follows valid inside) fun _ first ↦
      .bind (canonicalOperations_usages follows.mirrors operations rest later) fun _ h ↦
        .pure (first.append h)
  | .doBlock ⟨body, _⟩, valid, used => by
    obtain ⟨-, inside⟩ := (covers_opened rfl).1 used
    exact .bind (canonicalBody_closing suits follows.enterPlain.mirrors inside
      (canonicalBody_usages rfl follows.enterPlain (.refl []) body valid inside)) fun _ h ↦ .pure h
  | .invoke ⟨_, args, _⟩, ⟨valid, _⟩, used => by
    obtain ⟨-, inside⟩ := (covers_opened rfl).1 used
    exact .bind (canonicalValues_usages follows args valid inside) fun _ h ↦ .pure h

private theorem canonicalOperations_usages {p : Place} {Γ Γ' : Env} (mirrors : Γ.Mirrors k Γ') :
    (operations : List Operation) → OperationsValid K p Γ operations →
      k.Covers (operationVisits outsideDefinitions operations) →
      Yields (fun operations' ↦ Usage.Similar (operationUsages p Γ operations)
          (operationUsages p Γ' operations'))
        (canonicalOperations k operations)
  | [], _, _ => .pure .nil
  | ⟨operator, item, accumulator, body, span⟩ :: operations, ⟨_, valid, rest⟩, used => by
    obtain ⟨inside, later⟩ := covers_append.1 used
    obtain ⟨header, inside⟩ := (covers_opened rfl).1 inside
    let o : Operation := ⟨operator, item, accumulator, [], span⟩
    let written : Operation := ⟨operator, some o.itemIdent, o.accumulatorIdent?, [], span⟩
    have same : written.names.map Located.val = o.names.map Located.val :=
      o.map_val_names_written []
    have entered : (Γ.enter .bodyLocal o.names).Mirrors k (Γ'.enter .bodyLocal written.names) :=
      mirrors.enter rfl same (not_makesUp_operation header)
    have follows : k.Follows (Γ.enter .bodyLocal o.names) (Γ'.enter .bodyLocal written.names)
        o.bodyContext ((Γ.enter .bodyLocal o.names).give (o.names.map Located.val)) :=
      .give entered o.bodyContext_not_implicit (o.map_val_bodyContext ▸ .refl _)
    exact .bind (canonicalBody_closing suits entered inside
      (canonicalBody_usages rfl follows (.refl []) body valid inside)) fun _ first ↦
        .bind (canonicalOperations_usages mirrors operations rest later) fun _ h ↦
          .pure (first.append h)

private theorem Expr.canonical_usages {p : Place} {Γ Γ' : Env} {context : Context}
    {given given' : Given} (follows : k.Follows Γ Γ' context given) :
    (e : Expr) → e.Valid K p Γ → k.Covers (e.visits outsideDefinitions) →
      Yields (fun x ↦ Usage.Similar (e.usages p Γ given) (x.usages p Γ' given'))
        (e.canonical k context)
  | .action a, valid, used => .bind (a.canonical_usages follows valid used) fun _ h ↦ .pure h
  | .string s, _, _ => .pure (.idents follows.mirrors s.interpolations)
  | .number _, _, _ | .discretion _, _, _ => .pure .nil
  | .ident name, _, _ => .pure (.idents follows.mirrors [name])
  | .array ⟨items, _⟩, valid, used =>
    .bind (canonicalValues_usages follows items valid (covers_cons.1 used).2) fun _ h ↦ .pure h
  | .object ⟨entries, _⟩, valid, used =>
    .bind (canonicalEntries_usages follows entries valid (covers_cons.1 used).2) fun _ h ↦ .pure h

private theorem canonicalValues_usages {p : Place} {Γ Γ' : Env} {context : Context}
    {given given' : Given} (follows : k.Follows Γ Γ' context given) :
    (es : List Expr) → ValuesValid K p Γ es → k.Covers (valueVisits outsideDefinitions es) →
      Yields (fun es' ↦ Usage.Similar (valueUsages p Γ given es) (valueUsages p Γ' given' es'))
        (canonicalValues k context es)
  | [], _, _ => .pure .nil
  | e :: es, ⟨valid, rest⟩, used => by
    obtain ⟨here, later⟩ := covers_append.1 used
    exact .bind (e.canonical_usages follows valid here) fun _ first ↦
      .bind (canonicalValues_usages follows es rest later) fun _ h ↦ .pure (first.append h)

private theorem canonicalEntries_usages {p : Place} {Γ Γ' : Env} {context : Context}
    {given given' : Given} (follows : k.Follows Γ Γ' context given) :
    (entries : List Entry) → EntriesValid K p Γ entries →
      k.Covers (entryVisits outsideDefinitions entries) →
      Yields (fun entries' ↦ Usage.Similar (entryUsages p Γ given entries)
          (entryUsages p Γ' given' entries'))
        (canonicalEntries k context entries)
  | [], _, _ => .pure .nil
  | ⟨_, some value⟩ :: entries, ⟨valid, rest⟩, used => by
    obtain ⟨here, later⟩ := covers_append.1 used
    exact .bind (value.canonical_usages follows valid here) fun _ first ↦
      .bind (canonicalEntries_usages follows entries rest later) fun _ h ↦ .pure (first.append h)
  | ⟨key, none⟩ :: entries, ⟨_, rest⟩, used => by
    have here := Usage.Similar.idents follows.mirrors [key]
    exact .bind (canonicalEntries_usages follows entries rest (covers_cons.1 used).2) fun _ h ↦
      .pure (here.append h)

end

end

/-! ## Programs -/

/-- What a valid program says about the use of names is what its canonical form says, with all
contexts written. -/
theorem Program.canonical_usages {options : ValidatorOptions} {p : Program}
    (valid : p.Valid options)
    (prompts : ∀ a, .agent a ∈ p.statements → ∀ x, a.prompt = some x → x.interpolations = [])
    (branches : ∀ i, branchName i ∉ p.boundNames) : Usage.Similar p.usages p.canonical.usages := by
  have suits := valid.suits prompts branches
  have start : Env.Mirrors (.ofProgram p) [Env.emptyScope] [Env.emptyScope] := .scope .empty
  exact canonicalBody_closing suits start (covers_ofProgram p)
    (canonicalBody_usages suits rfl (.nothing start) (.refl []) p.statements valid.statements
      (covers_ofProgram p)) 0

/-- The canonical form of a valid program is warned about for the bindings that nothing uses if all
contexts are written. Prompts of agents must have no names in them, and the program must not bind a
name that expansion gives to branches. -/
theorem Program.unused_canonical {validation : ValidatorOptions} {p : Program}
    (valid : p.Valid validation)
    (prompts : ∀ a, .agent a ∈ p.statements → ∀ x, a.prompt = some x → x.interpolations = [])
    (branches : ∀ i, branchName i ∉ p.boundNames) (options : ValidatorOptions) (x : Ident) :
    unusedFinding x ∈ (validate p.canonical options).warnings
      ↔ options.warnOnUnusedBindings = true ∧ ∃ u ∈ p.usages, u.Leaves Usage.Due x := by
  rw [validate_unused, (Program.canonical_usages valid prompts branches).leaves x]

/-- The canonical form of a valid program is warned about for the bindings that the program itself
is warned about for, and for those that are overlooked in it: those that a check takes the next
statement to use although no session in it is given them. Nothing that is handed down may be
declared anew on the way, prompts of agents must have no names in them, and the program must not
bind a name that expansion gives to branches. -/
theorem validate_canonical_unused (p : Program) (validation options : ValidatorOptions) (x : Ident)
    (valid : (validate p validation).isValid = true)
    (prompts : ∀ a, .agent a ∈ p.statements → ∀ x, a.prompt = some x → x.interpolations = [])
    (branches : ∀ i, branchName i ∉ p.boundNames) (intact : ∀ u ∈ p.usages, u.Intact) :
    unusedFinding x ∈ (validate p.canonical options).warnings
      ↔ unusedFinding x ∈ (validate p options).warnings
        ∨ options.warnOnUnusedBindings = true ∧ ∃ u ∈ p.usages, u.Overlooks x := by
  rw [validate_isValid_iff] at valid
  have split : (∃ u ∈ p.usages, u.Leaves Usage.Due x)
      ↔ (∃ u ∈ p.usages, u.Leaves Usage.Seen x) ∨ ∃ u ∈ p.usages, u.Overlooks x := by
    simp only [← exists_or, ← and_or_left]
    exact exists_congr fun u ↦ and_congr_right fun member ↦
      Usage.leaves_due_iff (p.usages_sound intact u member) x
  rw [Program.unused_canonical valid prompts branches, validate_unused, split, and_or_left]

/-- The first result is handed past a loop. The second one is not used by what follows it. -/
theorem validate_canonical_unused_loop :
    let source := "let draft = session \"a\"\nrepeat 2:\n  session \"b\"\nlet note = session \"c\"\n"
    let p := (parse source).program
    let x : Ident := ⟨"note", ⟨⟨52, 4, 4⟩, ⟨56, 4, 8⟩⟩⟩
    (validate p {}).isValid = true
      ∧ (∀ a, .agent a ∈ p.statements → ∀ x, a.prompt = some x → x.interpolations = [])
      ∧ (∀ i, branchName i ∉ p.boundNames) ∧ (∀ u ∈ p.usages, u.Intact)
      ∧ unusedFinding x ∈ (validate p {}).warnings
      ∧ (unusedFinding x ∈ (validate p.canonical {}).warnings
        ↔ unusedFinding x ∈ (validate p {}).warnings
          ∨ ({} : ValidatorOptions).warnOnUnusedBindings = true
            ∧ ∃ u ∈ p.usages, u.Overlooks x) := by
  intro source p x
  have valid : (validate p {}).isValid = true := by decide +kernel
  have prompts (a : Agent) (member : .agent a ∈ p.statements) (x : StringLit)
      (chosen : a.prompt = some x) : x.interpolations = [] := by
    have none : (Expansion.ofProgram p).agents = [] := by decide +kernel
    have known : a ∈ (Expansion.ofProgram p).agents := List.mem_filterMap.2 ⟨_, member, rfl⟩
    rw [none] at known
    cases known
  have branches (i : Nat) : branchName i ∉ p.boundNames := by
    have names : p.boundNames = ["draft", "note"] := by decide +kernel
    rw [names]
    exact branchName_notMem (by decide) i
  have intact : ∀ u ∈ p.usages, u.Intact := by decide +kernel
  exact ⟨valid, prompts, branches, intact, unusedFinding_mem_warnings.2 (by decide +kernel),
    validate_canonical_unused p {} {} x valid prompts branches intact⟩

/-- A session in the body of a pipe operation is given the item. The result of the statement before
is taken to be used and used by nothing. -/
theorem overlooked_result_of_pipe :
    let source := "let x = session \"a\"\nlet y = [\"q\"]\n  | map:\n    session \"b\"\n"
    let p := (parse source).program
    let x : Ident := ⟨"x", ⟨⟨4, 1, 4⟩, ⟨5, 1, 5⟩⟩⟩
    (parse source).hasErrors = false ∧ (validate p {}).isValid = true
      ∧ unusedFinding x ∉ (validate p {}).warnings
      ∧ unusedFinding x ∈ (validate p.canonical {}).warnings :=
  ⟨by decide +kernel, by decide +kernel, mt unusedFinding_mem_warnings.1 (by decide +kernel),
    unusedFinding_mem_warnings.2 (by decide +kernel)⟩

end ProseLang
