import ProseLang.Proofs.Canonical.Settled
import ProseLang.Proofs.Canonical.Stripping
import ProseLang.Proofs.Program.Leaves

/-!
# Leaves of a canonical program

What holds of the leaves of a program holds of those of its canonical form, provided that it holds
of what expansion makes up (`Leaf.HoldsOfMade`, `canonicalBody_has`), and what holds of all comments
is not changed by leaving them out (`bodyHas_withoutComments`). The statements outside of blocks
keep their places (`canonicalBody_spans`).
-/

namespace ProseLang

/-- Whether a property of leaves holds of what expansion makes up. -/
structure Leaf.HoldsOfMade (L : Leaf → Prop) : Prop where
  again : ∀ x, L (.name x) → L (.name (.made x.val))
  anonymous : ∀ n, L (.name (.made (anonymousName n)))
  branch : ∀ n, L (.name (.made (branchName n)))
  item : L (.name (.made OperationOf.defaultItem))
  accumulator : L (.name (.made OperationOf.defaultAccumulator))
  quoted : ∀ text, '\r' ∉ text.toList → L (.quoted (.made text))
  count : ∀ n, L (.count (.made n))

variable {L : Leaf → Prop} {k : Expansion} {context : Context}

/-! ## Steps of expansion -/

private theorem Expansion.withAgent_has (agents : ∀ a ∈ k.agents, a.Has L) {s : Session}
    (h : s.Has L) : (k.withAgent s).Has L := by
  rw [withAgent]
  split
  · exact h
  · next a found =>
    have defined : a ∈ k.agents := by
      obtain ⟨name, -, first⟩ := Option.bind_eq_some_iff.1 found
      exact List.mem_of_find?_eq_some first
    have settings := agents a defined
    refine { h with prompt := ?_, model := ?_, skills := ?_ }
    · intro x chosen
      cases written : s.prompt with
      | none => exact settings.prompt x (by simpa [written] using chosen)
      | some own => exact h.prompt x (by simpa [written] using chosen)
    · intro m chosen
      cases written : s.model with
      | none => exact settings.model m (by simpa [written] using chosen)
      | some own => exact h.model m (by simpa [written] using chosen)
    · intro xs chosen
      cases written : s.skills with
      | some own => exact h.skills xs (by simpa [written] using chosen)
      | none =>
        rw [written] at chosen
        change (if a.skills.isEmpty then none else some a.skills) = some xs at chosen
        split at chosen
        · cases chosen
        · obtain rfl := Option.some.inj chosen
          exact settings.skills

private theorem Expansion.session_has (made : Leaf.HoldsOfMade L) (agents : ∀ a ∈ k.agents, a.Has L)
    (given : ∀ x ∈ context.names, L (.name x)) {s : Session} (h : s.Has L) :
    (k.session context s).Has L := by
  have settled := withAgent_has agents h
  refine { settled with arrow := nofun, context := ?_, backoff := ?_ }
  · change ∀ x ∈ (if (k.withAgent s).context.isImplicit then context
      else (k.withAgent s).context).names, L (.name x)
    split
    · exact given
    · exact settled.context
  · intro b chosen
    cases written : (k.withAgent s).backoff with
    | some own => exact settled.backoff b (by simpa [session, written] using chosen)
    | none =>
      cases retried : (k.withAgent s).retry with
      | none => simp [session, written, retried] at chosen
      | some r =>
        obtain rfl : .made "none" = b := by simpa [session, written, retried] using chosen
        exact made.quoted _ (by decide)

private theorem ParallelOf.withDefaults_has (made : Leaf.HoldsOfMade L) {p : Parallel}
    {body : List Statement} (h : (Statement.parallel p).Has L) (hbody : BodyHas L body) :
    (Statement.parallel { p.withDefaults with body }).Has L := by
  obtain ⟨⟨join, onFail, count, keys⟩, -⟩ := has_parallel.1 h
  refine has_parallel.2 ⟨⟨?_, ?_, ?_, keys⟩, hbody⟩
  · rintro x ⟨⟩
    cases written : p.join with
    | none => exact made.quoted _ (by decide)
    | some own => exact join own written
  · intro x chosen
    cases written : p.onFail with
    | some own => exact onFail x (by simpa [withDefaults, written] using chosen)
    | none =>
      obtain rfl : _ = x := by simpa [withDefaults, written] using chosen
      refine made.quoted _ ?_
      split <;> decide
  · intro x chosen
    cases written : p.count with
    | some own => exact count x (by simpa [withDefaults, written] using chosen)
    | none =>
      simp only [withDefaults, written] at chosen
      split at chosen
      · obtain rfl := Option.some.inj chosen
        exact made.count 1
      · cases chosen

private theorem Statement.boundName_has {s : Statement} (h : s.Has L) :
    ∀ x ∈ s.boundName?, L (.name x) := by
  cases s with
  | binding kind b =>
    rintro _ ⟨⟩
    exact (has_binding.1 h).1
  | assignment a =>
    rintro _ ⟨⟩
    exact (has_assignment.1 h).1
  | action a =>
    cases a with
    | session s => exact (has_session.1 (has_statement_action.1 h)).name
    | _ => exact nofun
  | _ => exact nofun

private theorem Statement.resultContext_has (made : Leaf.HoldsOfMade L) {s : Statement}
    (h : s.Has L) : ∀ x ∈ s.resultContext.names, L (.name x) := by
  unfold resultContext
  split
  · next p =>
    have branches := (has_parallel.1 h).2
    split
    · exact nofun
    · intro x member
      obtain ⟨name, among, rfl⟩ := List.mem_map.1 member
      obtain ⟨branch, inBody, bound⟩ := List.mem_filterMap.1 among
      exact made.again name (boundName_has (branches branch inBody) name bound)
  · split
    · next name bound =>
      exact List.forall_mem_singleton.2 (made.again name (boundName_has h name bound))
    · exact nofun

private theorem Statement.asBranch_has (made : Leaf.HoldsOfMade L) {s : Statement} (n : Nat)
    (h : s.Has L) : (s.asBranch n).Has L := by
  cases s with
  | action a =>
    have value : (Statement.assignment ⟨.made (branchName n), .action a, a.span⟩).Has L :=
      has_assignment.2 ⟨made.branch n, has_expr_action.2 (has_statement_action.1 h)⟩
    cases a with
    | session t =>
      rw [asBranch]
      split
      · exact h
      · exact value
    | pipe | doBlock | invoke => exact value
  | _ => exact h

private theorem Statement.withName_has (made : Leaf.HoldsOfMade L) {s : Statement} (h : s.Has L) :
    Yields (fun t ↦ t.Has L) (s.withName k) := by
  cases s with
  | action a =>
    cases a with
    | session t =>
      rw [withName]
      split
      · exact .pure h
      · refine .bind (P := fun name ↦ L (.name name)) (fun n ↦ made.anonymous _) fun name hname ↦ ?_
        refine .pure (has_statement_action.2 (has_session.2 ?_))
        refine { has_session.1 (has_statement_action.1 h) with name := ?_ }
        rintro _ ⟨⟩
        exact hname
    | pipe | doBlock | invoke => exact .pure h
  | _ => exact .pure h

private theorem OperationOf.itemIdent_has (made : Leaf.HoldsOfMade L) {o : Operation}
    (h : o.Has L) : L (.name o.itemIdent) := by
  have item := (has_operation.1 h).1.2.1
  rw [itemIdent]
  cases written : o.item with
  | none => exact made.item
  | some x => exact item x written

private theorem OperationOf.accumulator_has (made : Leaf.HoldsOfMade L) {o : Operation}
    (h : o.Has L) : L (.name (o.accumulator.getD (.made defaultAccumulator))) := by
  have accumulator := (has_operation.1 h).1.2.2
  cases written : o.accumulator with
  | none => exact made.accumulator
  | some x => exact accumulator x written

private theorem OperationOf.bodyContext_has (made : Leaf.HoldsOfMade L) {o : Operation}
    (h : o.Has L) : ∀ x ∈ o.bodyContext.names, L (.name x) := by
  have item := made.again _ (itemIdent_has made h)
  have accumulator := made.again _ (accumulator_has made h)
  rw [bodyContext]
  split
  · exact List.forall_mem_cons.2 ⟨accumulator, List.forall_mem_singleton.2 item⟩
  · exact List.forall_mem_singleton.2 item

/-- An operation with what it binds written out. -/
theorem OperationOf.has_named (made : Leaf.HoldsOfMade L) {o : Operation} (h : o.Has L)
    {body : List Statement} (hbody : BodyHas L body) :
    OperationOf.Has L ⟨o.operator, some o.itemIdent, o.accumulatorIdent?, body, o.span⟩ := by
  obtain ⟨⟨operator, -, accumulator⟩, -⟩ := has_operation.1 h
  refine has_operation.2 ⟨⟨operator, ?_, ?_⟩, hbody⟩
  · rintro _ ⟨⟩
    exact itemIdent_has made h
  · change ∀ x ∈ o.accumulatorIdent?, L (.name x)
    rw [accumulatorIdent?]
    split
    · rintro _ ⟨⟩
      exact accumulator_has made h
    · exact accumulator

/-! ## Expansion -/

section

-- the theorems of the mutual block share the hypotheses, and some need them for the others only
set_option linter.unusedSectionVars false

variable (made : Leaf.HoldsOfMade L) (agents : ∀ a ∈ k.agents, a.Has L)
include made agents

mutual

private theorem Statement.canonical_has {context : Context}
    (given : ∀ x ∈ context.names, L (.name x)) :
    (s : Statement) → s.Has L → Yields (fun t ↦ t.Has L) (s.canonical k context)
  | .comment _, h | .importSkill _, h | .agent _, h | .throw _, h => .pure h
  | .block ⟨_, _, body, _⟩, h => by
    obtain ⟨names, hbody⟩ := has_block.1 h
    have given : ∀ x ∈ Context.empty.names, L (.name x) := nofun
    exact .bind (canonicalBody_has given body hbody) fun _ hb ↦ .pure (has_block.2 ⟨names, hb⟩)
  | .binding _ ⟨_, value, _⟩, h => by
    obtain ⟨name, hvalue⟩ := has_binding.1 h
    exact .bind (value.canonical_has given hvalue) fun _ hv ↦ .pure (has_binding.2 ⟨name, hv⟩)
  | .assignment ⟨_, value, _⟩, h => by
    obtain ⟨name, hvalue⟩ := has_assignment.1 h
    exact .bind (value.canonical_has given hvalue) fun _ hv ↦ .pure (has_assignment.2 ⟨name, hv⟩)
  | .action a, h =>
    .bind (a.canonical_has given (has_statement_action.1 h)) fun _ ha ↦
      .pure (has_statement_action.2 ha)
  | .parallel ⟨_, _, _, _, body, _⟩, h => by
    obtain ⟨header, hbody⟩ := has_parallel.1 h
    refine .bind (canonicalBranches_has given 0 body hbody) fun _ hb ↦ .pure ?_
    exact ParallelOf.withDefaults_has made (has_parallel.2 ⟨header, nofun⟩) hb
  | .repeated ⟨_, _, body, _⟩, h => by
    obtain ⟨header, hbody⟩ := has_repeated.1 h
    exact .bind (canonicalBody_has given body hbody) fun _ hb ↦ .pure (has_repeated.2 ⟨header, hb⟩)
  | .forEach ⟨_, _, collection, _, _, _, body, _⟩, h => by
    obtain ⟨header, hcollection, hbody⟩ := has_forEach.1 h
    refine .bind (collection.canonical_has given hcollection) fun _ hc ↦ ?_
    exact .bind (canonicalBody_has given body hbody) fun _ hb ↦
      .pure (has_forEach.2 ⟨header, hc, hb⟩)
  | .loop ⟨_, _, _, _, body, _⟩, h => by
    obtain ⟨condition, header, hbody⟩ := has_loop.1 h
    exact .bind (canonicalBody_has given body hbody) fun _ hb ↦
      .pure (has_loop.2 ⟨condition, header, hb⟩)
  | .attempt ⟨body, handler, cleanup, _⟩, h => by
    obtain ⟨errors, hbody, handled, cleaned⟩ := has_attempt.1 h
    refine .bind (canonicalBody_has given body hbody) fun _ hb ↦ ?_
    refine .bind (canonicalHandler_has given handler errors handled) fun _ hh ↦ ?_
    exact .bind (canonicalClause_has given cleanup cleaned) fun _ hc ↦
      .pure (has_attempt.2 ⟨hh.1, hb, hh.2, hc⟩)
  | .choice ⟨_, options, _⟩, h => by
    obtain ⟨criteria, hoptions⟩ := has_choice.1 h
    exact .bind (canonicalOptions_has given options hoptions) fun _ ho ↦
      .pure (has_choice.2 ⟨criteria, ho⟩)
  | .conditional ⟨branches, otherwise, _⟩, h => by
    obtain ⟨⟨words, some⟩, hbranches, hotherwise⟩ := has_conditional.1 h
    refine .bind (canonicalConditions_has given branches hbranches) fun bs hb ↦ ?_
    refine .bind (canonicalClause_has given otherwise hotherwise) fun _ ho ↦ .pure ?_
    obtain ⟨same, hb⟩ := hb
    refine has_conditional.2 ⟨⟨?_, ?_⟩, hb, ho⟩
    · change ∀ l ∈ conditionWords (bs.map BranchOf.keyword), L l
      rw [same]
      exact words
    · rintro (rfl : bs = [])
      exact some (List.map_eq_nil_iff.1 same.symm)

/-- The leaves of what expansion makes of a body. -/
theorem canonicalBody_has {context : Context} (given : ∀ x ∈ context.names, L (.name x)) :
    (body : List Statement) → BodyHas L body → Yields (BodyHas L) (canonicalBody k context body)
  | [], _ => .pure nofun
  | s :: body, h => by
    obtain ⟨first, rest⟩ := List.forall_mem_cons.1 h
    refine .bind (s.canonical_has given first) fun _ hs ↦ ?_
    refine .bind (Statement.withName_has made hs) fun t ht ↦ ?_
    have next : ∀ x ∈ (if t.isExecutable then t.resultContext else context).names, L (.name x) := by
      split
      · exact Statement.resultContext_has made ht
      · exact given
    exact .bind (canonicalBody_has next body rest) fun _ hb ↦
      .pure (List.forall_mem_cons.2 ⟨ht, hb⟩)

private theorem canonicalBranches_has {context : Context}
    (given : ∀ x ∈ context.names, L (.name x)) (n : Nat) :
    (body : List Statement) → BodyHas L body →
      Yields (BodyHas L) (canonicalBranches k context n body)
  | [], _ => .pure nofun
  | s :: body, h => by
    obtain ⟨first, rest⟩ := List.forall_mem_cons.1 h
    refine .bind (s.canonical_has given first) fun t ht ↦ ?_
    split
    · exact .bind (canonicalBranches_has given (n + 1) body rest) fun _ hb ↦
        .pure (List.forall_mem_cons.2 ⟨Statement.asBranch_has made n ht, hb⟩)
    · exact .bind (canonicalBranches_has given n body rest) fun _ hb ↦
        .pure (List.forall_mem_cons.2 ⟨ht, hb⟩)

private theorem canonicalHandler_has {context : Context}
    (given : ∀ x ∈ context.names, L (.name x)) :
    (handler : Option Handler) → (∀ h ∈ handler, ∀ b ∈ h.error, b.Has L) →
      (∀ h ∈ handler, BodyHas L h.body) →
      Yields (fun handler ↦ (∀ h ∈ handler, ∀ b ∈ h.error, b.Has L)
        ∧ ∀ h ∈ handler, BodyHas L h.body) (canonicalHandler k context handler)
  | none, _, _ => .pure ⟨nofun, nofun⟩
  | some ⟨error, body, span⟩, errors, handled =>
    .bind (canonicalBody_has given body (handled _ rfl)) fun _ hb ↦ .pure (by
      refine ⟨?_, ?_⟩
      · rintro _ ⟨⟩
        exact errors ⟨error, body, span⟩ rfl
      · rintro _ ⟨⟩
        exact hb)

private theorem canonicalClause_has {context : Context} (given : ∀ x ∈ context.names, L (.name x)) :
    (clause : Option Body) → (∀ c ∈ clause, BodyHas L c.body) →
      Yields (fun clause ↦ ∀ c ∈ clause, BodyHas L c.body) (canonicalClause k context clause)
  | none, _ => .pure nofun
  | some ⟨body, _⟩, h =>
    .bind (canonicalBody_has given body (h _ rfl)) fun _ hb ↦ .pure (by
      rintro _ ⟨⟩
      exact hb)

private theorem canonicalOptions_has {context : Context}
    (given : ∀ x ∈ context.names, L (.name x)) : (options : List ChoiceOption) →
      (∀ o ∈ options, L (.string o.label) ∧ BodyHas L o.body) →
      Yields (fun options ↦ ∀ o ∈ options, L (.string o.label) ∧ BodyHas L o.body)
        (canonicalOptions k context options)
  | [], _ => .pure nofun
  | ⟨_, body, _⟩ :: options, h => by
    obtain ⟨⟨label, first⟩, rest⟩ := List.forall_mem_cons.1 h
    refine .bind (canonicalBody_has given body first) fun _ hb ↦ ?_
    exact .bind (canonicalOptions_has given options rest) fun _ ho ↦
      .pure (List.forall_mem_cons.2 ⟨⟨label, hb⟩, ho⟩)

private theorem canonicalConditions_has {context : Context}
    (given : ∀ x ∈ context.names, L (.name x)) : (branches : List Branch) →
      (∀ b ∈ branches, L (.discretion b.condition) ∧ BodyHas L b.body) →
      Yields (fun bs ↦ bs.map BranchOf.keyword = branches.map BranchOf.keyword
        ∧ ∀ b ∈ bs, L (.discretion b.condition) ∧ BodyHas L b.body)
        (canonicalConditions k context branches)
  | [], _ => .pure ⟨rfl, nofun⟩
  | ⟨keyword, _, body, _⟩ :: branches, h => by
    obtain ⟨⟨condition, first⟩, rest⟩ := List.forall_mem_cons.1 h
    refine .bind (canonicalBody_has given body first) fun _ hb ↦ ?_
    exact .bind (canonicalConditions_has given branches rest) fun _ ⟨same, ho⟩ ↦
      .pure ⟨congrArg (keyword :: ·) same, List.forall_mem_cons.2 ⟨⟨condition, hb⟩, ho⟩⟩

private theorem Action.canonical_has {context : Context}
    (given : ∀ x ∈ context.names, L (.name x)) :
    (a : Action) → a.Has L → Yields (fun b ↦ b.Has L) (a.canonical k context)
  | .session _, h => .pure (has_session.2 (k.session_has made agents given (has_session.1 h)))
  | .pipe ⟨input, operations, _⟩, h => by
    obtain ⟨hinput, hoperations⟩ := has_pipe.1 h
    refine .bind (input.canonical_has given hinput) fun _ hi ↦ ?_
    exact .bind (canonicalOperations_has operations hoperations) fun _ ho ↦
      .pure (has_pipe.2 ⟨hi, ho⟩)
  | .doBlock ⟨body, _⟩, h =>
    .bind (canonicalBody_has given body (has_doBlock.1 h)) fun _ hb ↦ .pure (has_doBlock.2 hb)
  | .invoke ⟨_, args, _⟩, h => by
    obtain ⟨name, hargs⟩ := has_invoke.1 h
    exact .bind (canonicalValues_has given args hargs) fun _ ha ↦ .pure (has_invoke.2 ⟨name, ha⟩)

private theorem canonicalOperations_has :
    (operations : List Operation) → (∀ o ∈ operations, o.Has L) →
      Yields (fun os ↦ ∀ o ∈ os, o.Has L) (canonicalOperations k operations)
  | [], _ => .pure nofun
  | ⟨operator, item, accumulator, body, span⟩ :: operations, h => by
    obtain ⟨first, rest⟩ := List.forall_mem_cons.1 h
    obtain ⟨names, hbody⟩ := has_operation.1 first
    have header : OperationOf.Has L ⟨operator, item, accumulator, [], span⟩ :=
      has_operation.2 ⟨names, nofun⟩
    refine .bind (canonicalBody_has (OperationOf.bodyContext_has made header) body hbody)
      fun _ hb ↦ ?_
    exact .bind (canonicalOperations_has operations rest) fun _ ho ↦
      .pure (List.forall_mem_cons.2 ⟨OperationOf.has_named made header hb, ho⟩)

private theorem Expr.canonical_has {context : Context} (given : ∀ x ∈ context.names, L (.name x)) :
    (e : Expr) → e.Has L → Yields (fun f ↦ f.Has L) (e.canonical k context)
  | .action a, h =>
    .bind (a.canonical_has given (has_expr_action.1 h)) fun _ ha ↦ .pure (has_expr_action.2 ha)
  | .array ⟨items, _⟩, h =>
    .bind (canonicalValues_has given items (has_expr_array.1 h)) fun _ hi ↦
      .pure (has_expr_array.2 hi)
  | .object ⟨entries, _⟩, h =>
    .bind (canonicalEntries_has given entries (has_expr_object.1 h)) fun _ he ↦
      .pure (has_expr_object.2 he)
  | .string _, h | .number _, h | .ident _, h | .discretion _, h => .pure h

private theorem canonicalValues_has {context : Context} (given : ∀ x ∈ context.names, L (.name x)) :
    (es : List Expr) → (∀ e ∈ es, e.Has L) →
      Yields (fun es ↦ ∀ e ∈ es, e.Has L) (canonicalValues k context es)
  | [], _ => .pure nofun
  | e :: es, h => by
    obtain ⟨first, rest⟩ := List.forall_mem_cons.1 h
    refine .bind (e.canonical_has given first) fun _ he ↦ ?_
    exact .bind (canonicalValues_has given es rest) fun _ hs ↦
      .pure (List.forall_mem_cons.2 ⟨he, hs⟩)

private theorem canonicalEntries_has {context : Context}
    (given : ∀ x ∈ context.names, L (.name x)) : (es : List Entry) → (∀ e ∈ es, e.Has L) →
      Yields (fun es ↦ ∀ e ∈ es, e.Has L) (canonicalEntries k context es)
  | [], _ => .pure nofun
  | ⟨key, some value⟩ :: es, h => by
    obtain ⟨⟨hkey, hvalue⟩, rest⟩ := List.forall_mem_cons.1 h
    refine .bind (value.canonical_has given (hvalue value rfl)) fun _ hv ↦ ?_
    refine .bind (canonicalEntries_has given es rest) fun _ hs ↦
      .pure (List.forall_mem_cons.2 ⟨⟨hkey, ?_⟩, hs⟩)
    rintro _ ⟨⟩
    exact hv
  | ⟨_, none⟩ :: es, h => by
    obtain ⟨first, rest⟩ := List.forall_mem_cons.1 h
    exact .bind (canonicalEntries_has given es rest) fun _ hs ↦
      .pure (List.forall_mem_cons.2 ⟨first, hs⟩)

end

end

/-! ## Stripping -/

section

open Classical in
/-- Something if a part of a program does not have a property. -/
noncomputable def Visit.failure (L : Leaf → Prop) (v : Visit) : List Unit :=
  if v.Has L then [] else [()]

private theorem Visit.failure_eq_nil {v : Visit} : v.failure L = [] ↔ v.Has L := by
  unfold failure
  split <;> simp [*]

private theorem Visit.failure_congr {v w : Visit} (h : v.Has L ↔ w.Has L) :
    v.failure L = w.failure L := by
  unfold failure
  split <;> split <;> simp_all

/-- Without comments, branches have the same words. -/
theorem branchesWithoutComments_keywords (branches : List Branch) :
    (branchesWithoutComments branches).map BranchOf.keyword = branches.map BranchOf.keyword := by
  induction branches with
  | nil => rfl
  | cons b branches ih => simp [branchesWithoutComments, ih]

private theorem entriesWithoutComments_keys (entries : List Entry) :
    (entriesWithoutComments entries).map EntryOf.key = entries.map EntryOf.key := by
  induction entries with
  | nil => rfl
  | cons e entries ih => rcases e with ⟨key, _ | value⟩ <;> simp [entriesWithoutComments, ih]

private theorem Statement.visit_has_withoutComments (s : Statement) :
    (Visit.statement s.withoutComments).Has L ↔ (Visit.statement s).Has L := by
  cases s with
  | attempt t => rcases t with ⟨_, _ | _, _, _⟩ <;> exact Iff.rfl
  | conditional c =>
    obtain ⟨branches, _, _⟩ := c
    have keywords := branchesWithoutComments_keywords branches
    have empty : branchesWithoutComments branches = [] ↔ branches = [] := by
      rw [← List.map_eq_nil_iff (f := BranchOf.keyword), keywords, List.map_eq_nil_iff]
    simp only [Visit.Has, Visit.leaves, Statement.withoutComments, Statement.leaves, keywords,
      Visit.IsWhole, ne_eq, empty]
  | _ => exact Iff.rfl

private theorem Expr.visit_has_withoutComments (e : Expr) :
    (Visit.value e.withoutComments).Has L ↔ (Visit.value e).Has L := by
  cases e with
  | object o =>
    have keys := congrArg (List.map Leaf.name) (entriesWithoutComments_keys o.entries)
    rw [List.map_map, List.map_map] at keys
    refine has_value.trans (.trans ?_ has_value.symm)
    exact Eq.to_iff (congrArg (fun ls ↦ ∀ l ∈ ls, L l) keys)
  | _ => exact Iff.rfl

/-- What all comments have does not tell a part from the same part without comments. -/
theorem overlooks_failure (comments : ∀ c, L (.comment c)) :
    Visit.Overlooks everywhere (Visit.failure L) where
  comment c := by
    rw [Visit.failure_eq_nil]
    exact ⟨List.forall_mem_singleton.2 (comments c), trivial⟩
  statementEnd := Visit.failure_eq_nil.2 has_statementEnd
  statement s := Visit.failure_congr s.visit_has_withoutComments
  action a := by
    apply Visit.failure_congr
    cases a <;> exact Iff.rfl
  operation _ _ := Visit.failure_congr Iff.rfl
  value e := Visit.failure_congr e.visit_has_withoutComments
  insideStatement _ := rfl
  insideAction _ := rfl
  insideOperation _ _ := rfl

/-- What the leaves of a body and all comments have, the leaves of the body without comments
have. -/
theorem bodyHas_withoutComments (comments : ∀ c, L (.comment c)) {body : List Statement}
    (h : BodyHas L body) : BodyHas L (bodyWithoutComments body) := by
  have failures (body : List Statement) :
      (bodyVisits everywhere body).flatMap (Visit.failure L) = [] ↔ BodyHas L body := by
    simp only [List.flatMap_eq_nil_iff, Visit.failure_eq_nil, forall_bodyVisits]
  rw [← failures, flatMap_bodyVisits (overlooks_failure comments) body]
  exact (failures body).2 h

end

/-! ## Places of statements -/

private theorem Statement.canonical_span (k : Expansion) (context : Context) (s : Statement) :
    Yields (fun t ↦ t.span = s.span) (s.canonical k context) := by
  cases s with
  | action a =>
    cases a with
    | session t =>
      refine .pure ?_
      change (k.withAgent t).span = t.span
      rw [Expansion.withAgent]
      split <;> rfl
    | _ => exact fun _ ↦ rfl
  | _ => exact fun _ ↦ rfl

private theorem Statement.withName_span (k : Expansion) (s : Statement) :
    Yields (fun t ↦ t.span = s.span) (s.withName k) := by
  cases s with
  | action a =>
    cases a with
    | session t =>
      rw [withName]
      split
      · exact .pure rfl
      · exact .bind (.any _) fun _ _ ↦ .pure rfl
    | _ => exact .pure rfl
  | _ => exact .pure rfl

/-- Expansion leaves the statements of a body where they are. -/
theorem canonicalBody_spans (k : Expansion) (context : Context) (body : List Statement) :
    Yields (fun ts ↦ ts.map Statement.span = body.map Statement.span)
      (canonicalBody k context body) := by
  induction body generalizing context with
  | nil => exact .pure rfl
  | cons s body ih =>
    refine .bind (s.canonical_span k context) fun t ht ↦ ?_
    refine .bind (t.withName_span k) fun u hu ↦ ?_
    refine .bind (ih _) fun us hus ↦ .pure ?_
    rw [List.map_cons, List.map_cons, hus, hu, ht]

/-- A statement of a body without comments stands where one of the body does. -/
theorem exists_span_of_mem_bodyWithoutComments {body : List Statement} {t : Statement}
    (h : t ∈ bodyWithoutComments body) : ∃ s ∈ body, t.span = s.span := by
  induction body with
  | nil => cases h
  | cons s body ih =>
    have later (h : t ∈ bodyWithoutComments body) : ∃ r ∈ s :: body, t.span = r.span := by
      obtain ⟨r, hr, same⟩ := ih h
      exact ⟨r, List.mem_cons_of_mem s hr, same⟩
    rw [bodyWithoutComments] at h
    split at h
    · exact later h
    · rcases List.mem_cons.1 h with rfl | h
      · refine ⟨s, List.mem_cons_self, ?_⟩
        cases s with
        | action a => cases a <;> rfl
        | _ => rfl
      · exact later h

end ProseLang
