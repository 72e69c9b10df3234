import ProseLang.Canonical.Compilation
import ProseLang.Grammar.Parsing
import ProseLang.Proofs.Canonical.Additions
import ProseLang.Proofs.Canonical.Definitions
import ProseLang.Proofs.Canonical.Stripping

/-!
# Compilation keeps programs valid

The canonical form of a valid program is valid (`compile_valid`), unless the program itself binds a
name of the form that expansion gives to branches, or an agent's prompt has names in it, which
nobody has looked at. The proof goes along the tree as expansion does: one step keeps statements
valid and the environment growing (`Statement.canonical_valid`), and so does a run
(`canonicalBody_valid`).
-/

namespace ProseLang

open Expansion

/-! ## The tree -/

section

-- the theorems of the mutual block share the hypothesis, and some need it for the others only
set_option linter.unusedSectionVars false

variable {k : Expansion} {K : Knowledge} (suits : k.Suits K)

include suits

mutual

/-- A valid statement is valid after expansion, and what names mean after it grows. -/
theorem Statement.canonical_valid {p : Place} {Γ Γ' : Env} {n : Nat} {context : Context}
    (grows : Env.Grows k n Γ Γ') (bound : context.BoundIn Γ') :
    (s : Statement) → s.Valid K p Γ →
      k.Covers (Visit.opened outsideDefinitions (.statement s) (s.visits outsideDefinitions)) →
      Expands n
        (fun t m ↦ t.Valid K p Γ'
          ∧ Env.Grows k m (s.envAfter p.isBranch Γ) (t.envAfter p.isBranch Γ'))
        (s.canonical k context)
  | .comment _, _, _ => .pure ⟨trivial, grows⟩
  | .importSkill _, valid, _ => .pure ⟨valid, grows⟩
  | .agent _, valid, _ => .pure ⟨valid, grows⟩
  | .throw t, ⟨message, inHandler⟩, _ => by
    have kept : ∀ m, t.message = some m → m.Valid Γ' := fun m h name member ↦
      grows.binds rfl (message m h name member)
    exact .pure ⟨⟨kept, inHandler⟩, grows⟩
  | .block ⟨_, params, body, _⟩, ⟨distinct, valid⟩, used => by
    obtain ⟨header, within⟩ := (covers_opened rfl).1 used
    have entered := grows.enterUsed .parameter fun name member ↦
      header name (List.mem_cons_of_mem _ member)
    have valid' := canonicalBody_valid rfl entered (Context.boundIn_empty _) body valid within
    exact valid'.bind fun _ _ le hb ↦ .pure ⟨⟨distinct, hb⟩, grows.mono le⟩
  | .binding kind ⟨name, value, _⟩, ⟨valid, fresh⟩, used => by
    obtain ⟨header, within⟩ := (covers_opened rfl).1 used
    have unmade := not_makesUp_of_mem (header name List.mem_cons_self)
    exact (value.canonical_valid grows bound valid within).bind fun _ _ le hv ↦
      .pure ⟨⟨hv, grows.lacks unmade fresh⟩, (grows.mono le).bind kind.symbolKind rfl unmade⟩
  | .assignment ⟨name, value, _⟩, ⟨valid, assigns⟩, used => by
    obtain ⟨header, within⟩ := (covers_opened rfl).1 used
    have unmade := not_makesUp_of_mem (header name List.mem_cons_self)
    exact (value.canonical_valid grows bound valid within).bind fun _ _ le hv ↦
      .pure ⟨⟨hv, grows.assigns unmade assigns⟩, (grows.mono le).envAfter_assignment unmade _⟩
  | .action a, ⟨valid, fresh⟩, used => by
    obtain ⟨-, within⟩ := (covers_opened rfl).1 used
    have unmade (name) (result : a.resultName? = some name) : ¬ k.MakesUp name.val :=
      not_makesUp_of_mem (within.resultName result)
    have both := (a.canonical_valid grows bound valid within).also
      (a.canonical_resultName k context)
    refine both.bind fun b m le ⟨hb, same⟩ ↦
      .pure ⟨⟨hb, fun name result ↦ ?_⟩, (grows.mono le).envAfter_action same unmade _⟩
    rw [same] at result
    exact grows.lacks (unmade name result) (fresh name result)
  | .parallel ⟨join, onFail, count, keys, body, span⟩, ⟨header, valid⟩, used => by
    obtain ⟨-, within⟩ := (covers_opened rfl).1 used
    have branch : p.branches.isBranch = true := rfl
    have both := (canonicalBranches_valid branch grows bound 0 body valid within).also
      (canonicalBranches_executable k context 0 body)
    exact both.bind fun body' _ _ ⟨⟨hb, grown⟩, same⟩ ↦
      .pure ⟨⟨ParallelOf.valid_withDefaults header same, hb⟩, grown⟩
  | .repeated ⟨_, index, body, _⟩, valid, used => by
    obtain ⟨header, within⟩ := (covers_opened rfl).1 used
    have entered := grows.enterUsed .bodyLocal header
    have valid' := canonicalBody_valid rfl entered (bound.enter _ _) body valid within
    exact valid'.bind fun _ _ le hb ↦ .pure ⟨hb, grows.mono le⟩
  | .forEach f, valid, used => canonicalForEach_valid grows bound f valid used
  | .loop ⟨_, _, index, _, body, _⟩, valid, used => by
    obtain ⟨header, within⟩ := (covers_opened rfl).1 used
    have entered := grows.enterUsed .bodyLocal header
    have valid' := canonicalBody_valid rfl entered (bound.enter _ _) body valid
      (covers_append.1 within).2
    exact valid'.bind fun _ _ le hb ↦ .pure ⟨hb, grows.mono le⟩
  | .attempt a, valid, used => canonicalAttempt_valid grows bound a valid used
  | .choice ⟨_, options, _⟩, valid, used => by
    obtain ⟨-, within⟩ := (covers_opened rfl).1 used
    have valid' := canonicalOptions_valid grows bound options valid (covers_cons.1 within).2
    exact valid'.bind fun _ _ le ho ↦ .pure ⟨ho, grows.mono le⟩
  | .conditional c, valid, used => canonicalConditional_valid grows bound c valid used

/-- A loop over a collection: its body is in the scope of its names. -/
theorem canonicalForEach_valid {p : Place} {Γ Γ' : Env} {n : Nat} {context : Context}
    (grows : Env.Grows k n Γ Γ') (bound : context.BoundIn Γ') :
    (f : ForEach) → (Statement.forEach f).Valid K p Γ →
      k.Covers (Visit.opened outsideDefinitions (.statement (.forEach f))
        ((Statement.forEach f).visits outsideDefinitions)) →
      Expands n
        (fun t m ↦ t.Valid K p Γ'
          ∧ Env.Grows k m ((Statement.forEach f).envAfter p.isBranch Γ)
            (t.envAfter p.isBranch Γ'))
        ((Statement.forEach f).canonical k context)
  | ⟨item, index, collection, _, _, _, body, _⟩, ⟨valid, distinct, inner⟩, used => by
    obtain ⟨header, within⟩ := (covers_opened rfl).1 used
    obtain ⟨within, later⟩ := covers_append.1 within
    refine (collection.canonical_valid grows bound valid within).bind fun _ _ le hc ↦ ?_
    have entered := (grows.mono le).enterUsed .bodyLocal header
    have inner' := canonicalBody_valid rfl entered (bound.enter _ _) body inner later
    exact inner'.bind fun _ _ le' hb ↦
      .pure ⟨⟨hc, distinct, hb⟩, grows.mono (Nat.le_trans le le')⟩

/-- An attempt: the error is a name of its handler only. -/
theorem canonicalAttempt_valid {p : Place} {Γ Γ' : Env} {n : Nat} {context : Context}
    (grows : Env.Grows k n Γ Γ') (bound : context.BoundIn Γ') :
    (a : Try) → (Statement.attempt a).Valid K p Γ →
      k.Covers (Visit.opened outsideDefinitions (.statement (.attempt a))
        ((Statement.attempt a).visits outsideDefinitions)) →
      Expands n
        (fun t m ↦ t.Valid K p Γ'
          ∧ Env.Grows k m ((Statement.attempt a).envAfter p.isBranch Γ)
            (t.envAfter p.isBranch Γ'))
        ((Statement.attempt a).canonical k context)
  | ⟨body, handler, cleanup, _⟩, ⟨valid, handled, cleaned⟩, used => by
    obtain ⟨header, within⟩ := (covers_opened rfl).1 used
    obtain ⟨within, last⟩ := covers_append.1 within
    obtain ⟨first, second⟩ := covers_append.1 within
    have entered := grows.enterPlain
    have valid' := canonicalBody_valid rfl entered (bound.enter _ _) body valid first
    refine valid'.bind fun _ m le hb ↦ ?_
    have handled' := canonicalHandler_valid (grows.mono le) bound handler handled header second
    refine handled'.bind fun _ m' le' hh ↦ ?_
    have cleaned' := canonicalClause_valid (grows.mono (Nat.le_trans le le')) bound cleanup
      cleaned last
    exact cleaned'.bind fun _ _ le'' hc ↦
      .pure ⟨⟨hb, hh, hc⟩, grows.mono (Nat.le_trans (Nat.le_trans le le') le'')⟩

/-- A conditional: one branch after the other, then what is left. -/
theorem canonicalConditional_valid {p : Place} {Γ Γ' : Env} {n : Nat} {context : Context}
    (grows : Env.Grows k n Γ Γ') (bound : context.BoundIn Γ') :
    (c : Conditional) → (Statement.conditional c).Valid K p Γ →
      k.Covers (Visit.opened outsideDefinitions (.statement (.conditional c))
        ((Statement.conditional c).visits outsideDefinitions)) →
      Expands n
        (fun t m ↦ t.Valid K p Γ'
          ∧ Env.Grows k m ((Statement.conditional c).envAfter p.isBranch Γ)
            (t.envAfter p.isBranch Γ'))
        ((Statement.conditional c).canonical k context)
  | ⟨branches, otherwise, _⟩, ⟨valid, rest⟩, used => by
    obtain ⟨-, within⟩ := (covers_opened rfl).1 used
    obtain ⟨first, second⟩ := covers_append.1 within
    refine (canonicalConditions_valid grows bound branches valid first).bind fun _ m le hb ↦ ?_
    have rest' := canonicalClause_valid (grows.mono le) bound otherwise rest second
    exact rest'.bind fun _ _ le' ho ↦ .pure ⟨⟨hb, ho⟩, grows.mono (Nat.le_trans le le')⟩

/-- Valid statements of a sequence are valid after expansion. -/
theorem canonicalBody_valid {p : Place} {Γ Γ' : Env} {n : Nat} {context : Context}
    (sequence : p.isBranch = false) (grows : Env.Grows k n Γ Γ') (bound : context.BoundIn Γ') :
    (body : List Statement) → BodyValid K p Γ body →
      k.Covers (bodyVisits outsideDefinitions body) →
      Expands n (fun body' _ ↦ BodyValid K p Γ' body') (canonicalBody k context body)
  | [], _, _ => .pure trivial
  | s :: body, ⟨valid, rest⟩, used => by
    obtain ⟨here, later⟩ := covers_bodyVisits.1 used
    have expanded := (s.canonical_valid grows bound valid here).also (s.canonical_like k context)
    refine expanded.bind fun t m le ⟨⟨ht, grown⟩, like⟩ ↦ ?_
    have named := (t.withName_valid ht grown).also (t.withName_like k)
    refine named.bind fun u m' le' ⟨⟨hu, grown'⟩, like'⟩ ↦ ?_
    -- the result has its name by now, so the statements that follow can be given it
    have next : (if u.isExecutable then u.resultContext else context).BoundIn
        (u.envAfter p.isBranch Γ') := by
      split
      · exact Statement.resultContext_boundIn hu
      · exact fun name member ↦ u.binds_envAfter (bound name member)
    have following : (p.past s).isBranch = false := (p.isBranch_past s).trans sequence
    have rest' := canonicalBody_valid following grown' next body rest later
    refine rest'.bind fun _ _ _ hb ↦ .pure ⟨hu, ?_⟩
    rwa [like'.past, like.past]

/-- Valid branches of a parallel block are valid after expansion. -/
theorem canonicalBranches_valid {p : Place} {Γ Γ' : Env} {n : Nat} {context : Context}
    (parallel : p.isBranch = true) (grows : Env.Grows k n Γ Γ') (bound : context.BoundIn Γ')
    (i : Nat) : (body : List Statement) → BodyValid K p Γ body →
      k.Covers (bodyVisits outsideDefinitions body) →
      Expands n
        (fun body' m ↦ BodyValid K p Γ' body'
          ∧ Env.Grows k m (bodyEnvAfter p.isBranch Γ body) (bodyEnvAfter p.isBranch Γ' body'))
        (canonicalBranches k context i body)
  | [], _, _ => .pure ⟨trivial, grows⟩
  | s :: body, ⟨valid, rest⟩, used => by
    obtain ⟨here, later⟩ := covers_bodyVisits.1 used
    have expanded := (s.canonical_valid grows bound valid here).also (s.canonical_like k context)
    refine expanded.bind fun t m le ⟨⟨ht, grown⟩, like⟩ ↦ ?_
    have following : (p.past s).isBranch = true := (p.isBranch_past s).trans parallel
    -- what is left to do for either form that the branch may take
    have after (i : Nat) (u : Statement) (hu : u.Valid K p Γ') (past : p.past u = p.past s)
        (grown : Env.Grows k m (s.envAfter p.isBranch Γ) (u.envAfter p.isBranch Γ')) :
        Expands m
          (fun body' m ↦ BodyValid K p Γ' body'
            ∧ Env.Grows k m (bodyEnvAfter p.isBranch Γ (s :: body))
              (bodyEnvAfter p.isBranch Γ' body'))
          (return u :: (← canonicalBranches k context i body)) := by
      have rest' := canonicalBranches_valid following grown
        (fun name member ↦ u.binds_envAfter (bound name member)) i body rest later
      rw [Place.isBranch_past] at rest'
      exact rest'.bind fun _ _ _ ⟨hb, grown'⟩ ↦ .pure ⟨⟨hu, past ▸ hb⟩, grown'⟩
    split
    · obtain ⟨hu, grown'⟩ := t.asBranch_valid ht parallel (suits.makesUp_branchName i) grown
      exact after (i + 1) _ hu (((t.asBranch_like i).past p).trans (like.past p)) grown'
    · exact after i t ht (like.past p) grown

private theorem canonicalHandler_valid {p : Place} {Γ Γ' : Env} {n : Nat} {context : Context}
    (grows : Env.Grows k n Γ Γ') (bound : context.BoundIn Γ') :
    (handler : Option Handler) → HandlerValid K p Γ handler →
      (∀ name ∈ ((handler.bind HandlerOf.error).map AsBinding.name).toList, name.val ∈ k.used) →
      k.Covers (handlerVisits outsideDefinitions handler) →
      Expands n (fun handler' _ ↦ HandlerValid K p Γ' handler') (canonicalHandler k context handler)
  | none, _, _, _ => .pure trivial
  | some ⟨error, body, _⟩, valid, header, used => by
    have entered := grows.enterUsed .bodyLocal header
    have valid' := canonicalBody_valid rfl entered (bound.enter _ _) body valid used
    exact valid'.bind fun _ _ _ hb ↦ .pure hb

private theorem canonicalClause_valid {p : Place} {Γ Γ' : Env} {n : Nat} {context : Context}
    (grows : Env.Grows k n Γ Γ') (bound : context.BoundIn Γ') :
    (clause : Option Body) → ClauseValid K p Γ clause →
      k.Covers (clauseVisits outsideDefinitions clause) →
      Expands n (fun clause' _ ↦ ClauseValid K p Γ' clause') (canonicalClause k context clause)
  | none, _, _ => .pure trivial
  | some ⟨body, _⟩, valid, used => by
    have entered := grows.enterPlain
    have valid' := canonicalBody_valid rfl entered (bound.enter _ _) body valid used
    exact valid'.bind fun _ _ _ hb ↦ .pure hb

private theorem canonicalOptions_valid {p : Place} {Γ Γ' : Env} {n : Nat} {context : Context}
    (grows : Env.Grows k n Γ Γ') (bound : context.BoundIn Γ') :
    (options : List ChoiceOption) → OptionsValid K p Γ options →
      k.Covers (optionVisits outsideDefinitions options) →
      Expands n (fun options' _ ↦ OptionsValid K p Γ' options') (canonicalOptions k context options)
  | [], _, _ => .pure trivial
  | ⟨label, body, _⟩ :: options, ⟨labelled, valid, rest⟩, used => by
    obtain ⟨within, later⟩ := covers_append.1 used
    have entered := grows.enterPlain
    have valid' := canonicalBody_valid rfl entered (bound.enter _ _) body valid
      (covers_cons.1 within).2
    refine valid'.bind fun _ m le hb ↦ ?_
    have labelled' : label.Valid Γ' := fun name member ↦ grows.binds rfl (labelled name member)
    have rest' := canonicalOptions_valid (grows.mono le) bound options rest later
    exact rest'.bind fun _ _ _ ho ↦ .pure ⟨labelled', hb, ho⟩

private theorem canonicalConditions_valid {p : Place} {Γ Γ' : Env} {n : Nat} {context : Context}
    (grows : Env.Grows k n Γ Γ') (bound : context.BoundIn Γ') :
    (branches : List Branch) → BranchesValid K p Γ branches →
      k.Covers (branchVisits outsideDefinitions branches) →
      Expands n (fun branches' _ ↦ BranchesValid K p Γ' branches')
        (canonicalConditions k context branches)
  | [], _, _ => .pure trivial
  | ⟨_, _, body, _⟩ :: branches, ⟨valid, rest⟩, used => by
    obtain ⟨within, later⟩ := covers_append.1 used
    have entered := grows.enterPlain
    have valid' := canonicalBody_valid rfl entered (bound.enter _ _) body valid
      (covers_cons.1 within).2
    refine valid'.bind fun _ m le hb ↦ ?_
    have rest' := canonicalConditions_valid (grows.mono le) bound branches rest later
    exact rest'.bind fun _ _ _ ho ↦ .pure ⟨hb, ho⟩

/-- A valid action is valid after expansion. -/
theorem Action.canonical_valid {p : Place} {Γ Γ' : Env} {n : Nat} {context : Context}
    (grows : Env.Grows k n Γ Γ') (bound : context.BoundIn Γ') :
    (a : Action) → a.Valid K p Γ →
      k.Covers (Visit.opened outsideDefinitions (.action a) (a.visits outsideDefinitions)) →
      Expands n (fun b _ ↦ b.Valid K p Γ') (a.canonical k context)
  | .session _, valid, _ => .pure (session_valid suits grows bound valid)
  | .pipe ⟨input, operations, _⟩, ⟨valid, rest⟩, used => by
    obtain ⟨-, within⟩ := (covers_opened rfl).1 used
    obtain ⟨within, later⟩ := covers_append.1 within
    refine (input.canonical_valid grows bound valid within).bind fun _ m le hi ↦ ?_
    have rest' := canonicalOperations_valid (grows.mono le) operations rest later
    exact rest'.bind fun _ _ _ ho ↦ .pure ⟨hi, ho⟩
  | .doBlock ⟨body, _⟩, valid, used => by
    obtain ⟨-, within⟩ := (covers_opened rfl).1 used
    have entered := grows.enterPlain
    have valid' := canonicalBody_valid rfl entered (bound.enter _ _) body valid within
    exact valid'.bind fun _ _ _ hb ↦ .pure hb
  | .invoke ⟨_, args, _⟩, ⟨valid, arity⟩, used => by
    obtain ⟨-, within⟩ := (covers_opened rfl).1 used
    have both := (canonicalValues_valid grows bound args valid within).also
      (length_canonicalValues k context args)
    refine both.bind fun _ _ _ ⟨ha, same⟩ ↦ .pure ⟨ha, ?_⟩
    rwa [same]

private theorem canonicalOperations_valid {p : Place} {Γ Γ' : Env} {n : Nat}
    (grows : Env.Grows k n Γ Γ') :
    (operations : List Operation) → OperationsValid K p Γ operations →
      k.Covers (operationVisits outsideDefinitions operations) →
      Expands n (fun operations' _ ↦ OperationsValid K p Γ' operations')
        (canonicalOperations k operations)
  | [], _, _ => .pure trivial
  | ⟨operator, item, accumulator, body, span⟩ :: operations, ⟨distinct, valid, rest⟩, used => by
    obtain ⟨within, later⟩ := covers_append.1 used
    obtain ⟨header, within⟩ := (covers_opened rfl).1 within
    let o : Operation := ⟨operator, item, accumulator, [], span⟩
    let names (body : List Statement) : List Ident :=
      OperationOf.names ⟨operator, some o.itemIdent, o.accumulatorIdent?, body, span⟩
    have same (body : List Statement) : (names body).map Located.val = o.names.map Located.val :=
      o.map_val_names_written body
    have entered := grows.enter .bodyLocal (same []) (not_makesUp_operation header)
    have given := Context.boundIn_enter Γ' .bodyLocal (o.map_val_bodyContext.trans (same []).symm)
    have valid' := canonicalBody_valid rfl entered given body valid within
    refine valid'.bind fun body' m le hb ↦ ?_
    have distinct' : Distinct (names body') := by
      rw [Distinct, same]
      exact distinct
    have rest' := canonicalOperations_valid (grows.mono le) operations rest later
    exact rest'.bind fun _ _ _ ho ↦ .pure ⟨distinct', hb, ho⟩

/-- A valid value is valid after expansion. -/
theorem Expr.canonical_valid {p : Place} {Γ Γ' : Env} {n : Nat} {context : Context}
    (grows : Env.Grows k n Γ Γ') (bound : context.BoundIn Γ') :
    (e : Expr) → e.Valid K p Γ → k.Covers (e.visits outsideDefinitions) →
      Expands n (fun x _ ↦ x.Valid K p Γ') (e.canonical k context)
  | .action a, valid, used =>
    (a.canonical_valid grows bound valid used).bind fun _ _ _ ha ↦ .pure ha
  | .string _, valid, _ => .pure fun name member ↦ grows.binds rfl (valid name member)
  | .number _, _, _ | .discretion _, _, _ => .pure trivial
  | .ident _, valid, _ => .pure (grows.binds rfl valid)
  | .array ⟨items, _⟩, valid, used =>
    (canonicalValues_valid grows bound items valid (covers_cons.1 used).2).bind fun _ _ _ hi ↦
      .pure hi
  | .object ⟨entries, _⟩, valid, used =>
    (canonicalEntries_valid grows bound entries valid (covers_cons.1 used).2).bind fun _ _ _ he ↦
      .pure he

private theorem canonicalValues_valid {p : Place} {Γ Γ' : Env} {n : Nat} {context : Context}
    (grows : Env.Grows k n Γ Γ') (bound : context.BoundIn Γ') :
    (es : List Expr) → ValuesValid K p Γ es → k.Covers (valueVisits outsideDefinitions es) →
      Expands n (fun es' _ ↦ ValuesValid K p Γ' es') (canonicalValues k context es)
  | [], _, _ => .pure trivial
  | e :: es, ⟨valid, rest⟩, used => by
    obtain ⟨here, later⟩ := covers_append.1 used
    refine (e.canonical_valid grows bound valid here).bind fun _ m le he ↦ ?_
    have rest' := canonicalValues_valid (grows.mono le) bound es rest later
    exact rest'.bind fun _ _ _ hs ↦ .pure ⟨he, hs⟩

private theorem canonicalEntries_valid {p : Place} {Γ Γ' : Env} {n : Nat} {context : Context}
    (grows : Env.Grows k n Γ Γ') (bound : context.BoundIn Γ') :
    (entries : List Entry) → EntriesValid K p Γ entries →
      k.Covers (entryVisits outsideDefinitions entries) →
      Expands n (fun entries' _ ↦ EntriesValid K p Γ' entries') (canonicalEntries k context entries)
  | [], _, _ => .pure trivial
  | ⟨_, some value⟩ :: entries, ⟨valid, rest⟩, used => by
    obtain ⟨here, later⟩ := covers_append.1 used
    refine (value.canonical_valid grows bound valid here).bind fun _ m le hv ↦ ?_
    have rest' := canonicalEntries_valid (grows.mono le) bound entries rest later
    exact rest'.bind fun _ _ _ hs ↦ .pure ⟨hv, hs⟩
  | ⟨_, none⟩ :: entries, ⟨key, rest⟩, used => by
    have rest' := canonicalEntries_valid grows bound entries rest (covers_cons.1 used).2
    exact rest'.bind fun _ _ _ hs ↦ .pure ⟨grows.binds rfl key, hs⟩

end

end

/-! ## Programs -/

/-- The agents of a valid program are valid. -/
theorem BodyValid.agent {k : Knowledge} {p : Place} {Γ : Env} {body : List Statement} {a : Agent}
    (valid : BodyValid k p Γ body) (member : .agent a ∈ body) : a.Valid k := by
  induction body generalizing p Γ with
  | nil => cases member
  | cons s body ih =>
    obtain ⟨first, rest⟩ := valid
    rcases List.mem_cons.1 member with rfl | later
    · exact first
    · exact ih rest later

/-- The agents that expansion knows are those defined at the top level. -/
theorem Expansion.agent_mem_statements {p : Program} {a : Agent} (h : a ∈ (ofProgram p).agents) :
    .agent a ∈ p.statements := by
  obtain ⟨s, member, is⟩ := List.mem_filterMap.1 h
  cases s with
  | agent b =>
    obtain rfl := Option.some.inj is
    exact member
  | _ => cases is

/-- Leaving out comments adds no agents. -/
theorem agent_mem_of_withoutComments {body : List Statement} {a : Agent}
    (h : .agent a ∈ bodyWithoutComments body) : .agent a ∈ body := by
  induction body with
  | nil => cases h
  | cons s body ih =>
    rw [bodyWithoutComments] at h
    split at h
    · exact List.mem_cons_of_mem s (ih h)
    · rcases List.mem_cons.1 h with here | later
      · cases s with
        | agent b =>
          obtain rfl := Statement.agent.inj here
          exact List.mem_cons_self
        | _ => cases here
      · exact List.mem_cons_of_mem s (ih later)

/-- The names that a program binds are in use. -/
theorem Expansion.covers_ofProgram (p : Program) :
    (ofProgram p).Covers (bodyVisits outsideDefinitions p.statements) :=
  fun v member _ bound ↦ List.mem_map_of_mem (List.mem_flatMap.2 ⟨v, member, bound⟩)

/-- What expansion has to know about a valid program. -/
theorem Program.Valid.suits {options : ValidatorOptions} {p : Program} (valid : p.Valid options)
    (prompts : ∀ a, .agent a ∈ p.statements → ∀ x, a.prompt = some x → x.interpolations = [])
    (branches : ∀ i, branchName i ∉ p.boundNames) :
    (Expansion.ofProgram p).Suits { options, definitions := .ofProgram p } where
  agents _ known := valid.statements.agent (agent_mem_statements known)
  prompts a known := prompts a (agent_mem_statements known)
  branches := branches

/-- The canonical form of a valid program is valid. -/
theorem Program.valid_canonical {options : ValidatorOptions} {p : Program} (valid : p.Valid options)
    (prompts : ∀ a, .agent a ∈ p.statements → ∀ x, a.prompt = some x → x.interpolations = [])
    (branches : ∀ i, branchName i ∉ p.boundNames) : p.canonical.Valid options := by
  have start : Env.Grows (.ofProgram p) 0 [Env.emptyScope] [Env.emptyScope] := .scope .empty
  obtain ⟨-, statements⟩ := canonicalBody_valid (valid.suits prompts branches) rfl start
    (Context.boundIn_empty _) p.statements valid.statements (covers_ofProgram p)
  rw [← Definitions.ofProgram_canonical p] at statements
  exact ⟨by rw [Definitions.ofProgram_canonical]; exact valid.agents,
    by rw [Definitions.ofProgram_canonical]; exact valid.blocks, statements⟩

/-- What a valid program is compiled to is valid, if no prompt of an agent has names in it and the
program binds no name that expansion gives to branches. -/
theorem compile_valid (p : Program) (options : CompileOptions) (validation : ValidatorOptions)
    (c : Compiled) (valid : (validate p validation).isValid = true)
    (prompts : ∀ a, .agent a ∈ p.statements → ∀ x, a.prompt = some x → x.interpolations = [])
    (branches : ∀ i, branchName i ∉ p.boundNames) (compiled : compile p options = .ok c) :
    (validate c.program validation).isValid = true := by
  rw [validate_isValid_iff] at valid ⊢
  rw [compile_program compiled]
  split
  · apply Program.valid_canonical (Program.valid_withoutComments valid)
    · exact fun a member ↦ prompts a (agent_mem_of_withoutComments member)
    · rwa [Program.boundNames_withoutComments]
  · exact Program.valid_canonical valid prompts branches

/-- The prompt of an agent is copied, and the branches get names. -/
theorem compile_valid_reviews :
    let source := "agent writer:\n  prompt: \"Write.\"\nlet draft = session: writer\n"
      ++ "parallel:\n  session \"Review {draft}.\"\n  session \"Check {draft}.\"\n"
    let p := (parse source).program
    (validate p {}).isValid = true
      ∧ (∀ a, .agent a ∈ p.statements → ∀ x, a.prompt = some x → x.interpolations = [])
      ∧ (∀ i, branchName i ∉ p.boundNames)
      ∧ ∃ c, compile p {} = .ok c ∧ (validate c.program {}).isValid = true := by
  intro source p
  have valid : (validate p {}).isValid = true := by decide +kernel
  have prompts (a : Agent) (member : .agent a ∈ p.statements) (x : StringLit)
      (chosen : a.prompt = some x) : x.interpolations = [] := by
    have plain : (Expansion.ofProgram p).agents.all
        (·.prompt.all (·.interpolations.isEmpty)) = true := by decide +kernel
    have known : a ∈ (Expansion.ofProgram p).agents := List.mem_filterMap.2 ⟨_, member, rfl⟩
    simpa [chosen] using List.all_eq_true.1 plain a known
  have branches (i : Nat) : branchName i ∉ p.boundNames := by
    have names : p.boundNames = ["writer", "draft"] := by decide +kernel
    have underscore : (branchName i).toList.head? = some '_' := by
      simp [branchName, String.toList_append]
    intro member
    rw [names] at member
    have plain : ∀ name ∈ ["writer", "draft"], name.toList.head? ≠ some '_' := by decide
    exact plain _ member underscore
  exact ⟨valid, prompts, branches, _, rfl, compile_valid p {} {} _ valid prompts branches rfl⟩

/-- Without the last condition the result need not be valid: a branch is given a name that the
program may have for a constant. -/
theorem compiled_branch_of_constant :
    let source := "const _branch_0 = session \"a\"\nparallel:\n  session \"b {_branch_0}\"\n"
    (parse source).hasErrors = false ∧ (validate (parse source).program {}).isValid = true
      ∧ ∃ c, compile (parse source).program {} = .ok c ∧ (validate c.program {}).isValid = false :=
  ⟨by decide +kernel, by decide +kernel, _, rfl, by decide +kernel⟩

end ProseLang
