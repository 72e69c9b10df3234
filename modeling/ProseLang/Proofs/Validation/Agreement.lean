import ProseLang.Proofs.Program.Leaves
import ProseLang.Proofs.Validation.Validity

/-!
# Names that do not matter

A statement that does not mention some names is as valid as it was if their meaning changes.
Environments that say the same of all other names agree off these (`Env.AgreeOff`), and everything
that the text before a statement is asked for is the same in both (`Statement.valid_of_agreeOff`).
-/

namespace ProseLang

/-- Whether a leaf does not mention any of some names. -/
def Leaf.Avoids (names : List String) : Leaf → Prop
  | name x => x.val ∉ names
  | string s => ∀ x ∈ s.interpolations, x.val ∉ names
  | _ => True

instance (names : List String) : DecidablePred (Leaf.Avoids names)
  | .name x => inferInstanceAs (Decidable (x.val ∉ names))
  | .string s => inferInstanceAs (Decidable (∀ x ∈ s.interpolations, x.val ∉ names))
  | .key _ | .quoted _ | .model _ | .numeral _ | .count _ | .discretion _ | .comment _
    | .keyword _ _
  | .operator _ | .arrow _ => inferInstanceAs (Decidable True)

namespace Env

/-- Whether two environments say the same of all but some names, both in their innermost scopes and
around these. -/
def AgreeOff (names : List String) (Γ Δ : Env) : Prop :=
  ∀ x, x ∉ names → Γ.headD emptyScope x = Δ.headD emptyScope x ∧ resolve Γ.tail x = resolve Δ.tail x

namespace AgreeOff

variable {names : List String} {Γ Δ : Env}

/-- An environment agrees with itself. -/
theorem refl (Γ : Env) : Γ.AgreeOff names Γ := fun _ _ ↦ ⟨rfl, rfl⟩

/-- Agreement is symmetric. -/
theorem symm (h : Γ.AgreeOff names Δ) : Δ.AgreeOff names Γ := fun x hx ↦
  ⟨(h x hx).1.symm, (h x hx).2.symm⟩

/-- Agreement is transitive. -/
theorem trans {Θ : Env} (h : Γ.AgreeOff names Δ) (h' : Δ.AgreeOff names Θ) :
    Γ.AgreeOff names Θ := fun x hx ↦
  ⟨(h x hx).1.trans (h' x hx).1, (h x hx).2.trans (h' x hx).2⟩

/-- Names that environments agree on mean the same. -/
theorem resolve (h : Γ.AgreeOff names Δ) {x : String} (hx : x ∉ names) :
    Γ.resolve x = Δ.resolve x := by
  rw [resolve_eq Γ, resolve_eq Δ, (h x hx).1, (h x hx).2]

private theorem binds (h : Γ.AgreeOff names Δ) {x : Ident} (hx : x.val ∉ names)
    (bound : Γ.Binds x) : Δ.Binds x := by
  rwa [Binds, ← h.resolve hx]

private theorem lacks (h : Γ.AgreeOff names Δ) {x : Ident} (hx : x.val ∉ names) (free : Γ.Lacks x) :
    Δ.Lacks x := by
  rwa [Lacks, ← (h _ hx).1]

private theorem assigns (h : Γ.AgreeOff names Δ) {x : Ident} {isBranch : Bool} (hx : x.val ∉ names)
    (may : Γ.Assigns isBranch x) : Δ.Assigns isBranch x where
  bound inSequence := h.binds hx (may.bound inSequence)
  writable d found := may.writable d (by rwa [h.resolve hx])

/-- The same declaration in both. -/
theorem bind (h : Γ.AgreeOff names Δ) (name : Ident) (kind : SymbolKind) :
    (Γ.bind name kind).AgreeOff names (Δ.bind name kind) := by
  intro x hx
  obtain ⟨head, tail⟩ := h x hx
  refine ⟨?_, tail⟩
  simp only [Env.bind, List.headD_cons, extend, head]

/-- The same new scope in both. -/
theorem enter (h : Γ.AgreeOff names Δ) (kind : SymbolKind) (locals : List Ident) :
    (Γ.enter kind locals).AgreeOff names (Δ.enter kind locals) := by
  have start : AgreeOff names (emptyScope :: Γ) (emptyScope :: Δ) := fun x hx ↦
    ⟨rfl, h.resolve hx⟩
  rw [Env.enter, Env.enter]
  generalize (emptyScope :: Γ : Env) = Γ', (emptyScope :: Δ : Env) = Δ' at start
  induction locals generalizing Γ' Δ' with
  | nil => exact start
  | cons x locals ih => exact ih _ _ (start.bind x kind)

/-- A declaration of one of the names. -/
theorem bind_left {name : Ident} (kind : SymbolKind) (member : name.val ∈ names) :
    (Γ.bind name kind).AgreeOff names Γ := by
  intro x hx
  have ne : name.val ≠ x := by
    rintro rfl
    exact hx member
  refine ⟨?_, rfl⟩
  rw [Env.bind, List.headD_cons, extend, if_neg ne, Option.or_none]

end AgreeOff

end Env

section

variable {names : List String}

mutual

/-- A statement that does not mention some names has the same effect whatever they mean. -/
theorem Statement.envAfter_agreeOff {isBranch : Bool} {Γ Δ : Env} (agree : Γ.AgreeOff names Δ) :
    (s : Statement) → s.Has (Leaf.Avoids names) →
      (s.envAfter isBranch Γ).AgreeOff names (s.envAfter isBranch Δ)
  | .binding kind ⟨name, _, _⟩, _ => agree.bind name kind.symbolKind
  | .assignment ⟨name, _, _⟩, h => by
    have apart : name.val ∉ names := (has_assignment.1 h).1
    rw [Statement.envAfter, Statement.envAfter, agree.resolve apart]
    split
    · exact agree.bind name .branch
    · exact agree
  | .action (.session s), _ => by
    rw [Statement.envAfter, Statement.envAfter]
    split
    · exact agree.bind _ .session
    · exact agree
  | .parallel ⟨_, _, _, _, body, _⟩, h => bodyEnvAfter_agreeOff agree body (has_parallel.1 h).2
  | .comment _, _ | .importSkill _, _ | .agent _, _ | .block _, _ | .repeated _, _ | .forEach _, _
  | .loop _, _ | .attempt _, _ | .throw _, _ | .choice _, _ | .conditional _, _
  | .action (.pipe _), _ | .action (.doBlock _), _ | .action (.invoke _), _ => agree

private theorem bodyEnvAfter_agreeOff {isBranch : Bool} {Γ Δ : Env} (agree : Γ.AgreeOff names Δ) :
    (body : List Statement) → BodyHas (Leaf.Avoids names) body →
      (bodyEnvAfter isBranch Γ body).AgreeOff names (bodyEnvAfter isBranch Δ body)
  | [], _ => agree
  | s :: body, h => by
    obtain ⟨first, rest⟩ := List.forall_mem_cons.1 h
    exact bodyEnvAfter_agreeOff (s.envAfter_agreeOff agree first) body rest

end

private theorem StringLit.valid_of_agreeOff {Γ Δ : Env} (agree : Γ.AgreeOff names Δ) {s : StringLit}
    (h : Leaf.Avoids names (.string s)) (valid : s.Valid Γ) : s.Valid Δ :=
  fun x hx ↦ agree.binds (h x hx) (valid x hx)

private theorem SessionOf.valid_of_agreeOff {k : Knowledge} {Γ Δ : Env} (agree : Γ.AgreeOff names Δ)
    {s : Session} (h : s.Has (Leaf.Avoids names)) (valid : SessionOf.Valid k Γ s) :
    SessionOf.Valid k Δ s :=
  { valid with
    prompt := fun x chosen ↦ StringLit.valid_of_agreeOff agree (h.prompt x chosen)
      (valid.prompt x chosen)
    context := fun x hx ↦ agree.binds (h.context x hx) (valid.context x hx) }

private theorem resultName_lacks {Γ Δ : Env} (agree : Γ.AgreeOff names Δ) {a : Action}
    (h : a.Has (Leaf.Avoids names)) (free : ∀ x, a.resultName? = some x → Γ.Lacks x) (x : Ident)
    (named : a.resultName? = some x) : Δ.Lacks x := by
  cases a with
  | session s => exact agree.lacks ((has_session.1 h).name x named) (free x named)
  | _ => cases named

variable {k : Knowledge}

mutual

/-- A statement that does not mention some names is as valid whatever they mean. -/
theorem Statement.valid_of_agreeOff {p : Place} {Γ Δ : Env} (agree : Γ.AgreeOff names Δ) :
    (s : Statement) → s.Has (Leaf.Avoids names) → s.Valid k p Γ → s.Valid k p Δ
  | .comment _, _, valid | .importSkill _, _, valid | .agent _, _, valid => valid
  | .block ⟨_, params, body, _⟩, h, ⟨distinct, valid⟩ =>
    ⟨distinct, bodyValid_of_agreeOff (agree.enter .parameter params) body (has_block.1 h).2 valid⟩
  | .binding _ ⟨_, value, _⟩, h, ⟨valid, fresh⟩ => by
    obtain ⟨name, hvalue⟩ := has_binding.1 h
    exact ⟨value.valid_of_agreeOff agree hvalue valid, agree.lacks name fresh⟩
  | .assignment ⟨_, value, _⟩, h, ⟨valid, assigns⟩ => by
    obtain ⟨name, hvalue⟩ := has_assignment.1 h
    exact ⟨value.valid_of_agreeOff agree hvalue valid, agree.assigns name assigns⟩
  | .action a, h, ⟨valid, fresh⟩ => by
    have h := has_statement_action.1 h
    exact ⟨a.valid_of_agreeOff agree h valid, resultName_lacks agree h fresh⟩
  | .parallel ⟨_, _, _, _, body, _⟩, h, ⟨header, valid⟩ =>
    ⟨header, bodyValid_of_agreeOff agree body (has_parallel.1 h).2 valid⟩
  | .repeated ⟨_, _, body, _⟩, h, valid =>
    bodyValid_of_agreeOff (agree.enter .bodyLocal _) body (has_repeated.1 h).2 valid
  | .forEach ⟨_, _, collection, _, _, _, body, _⟩, h, ⟨hcollection, names, valid⟩ => by
    obtain ⟨-, avoids, hbody⟩ := has_forEach.1 h
    exact ⟨collection.valid_of_agreeOff agree avoids hcollection, names,
      bodyValid_of_agreeOff (agree.enter .bodyLocal _) body hbody valid⟩
  | .loop ⟨_, _, _, _, body, _⟩, h, valid =>
    bodyValid_of_agreeOff (agree.enter .bodyLocal _) body (has_loop.1 h).2.2 valid
  | .attempt ⟨body, handler, cleanup, _⟩, h, ⟨valid, handled, cleaned⟩ => by
    obtain ⟨-, hbody, hhandler, hcleanup⟩ := has_attempt.1 h
    exact ⟨bodyValid_of_agreeOff (agree.enter .bodyLocal []) body hbody valid,
      handlerValid_of_agreeOff agree handler hhandler handled,
      clauseValid_of_agreeOff agree cleanup hcleanup cleaned⟩
  | .throw _, h, ⟨message, inHandler⟩ =>
    have avoids := has_throw.1 h
    ⟨fun m hm ↦ StringLit.valid_of_agreeOff agree (avoids m hm) (message m hm), inHandler⟩
  | .choice ⟨_, options, _⟩, h, valid =>
    optionsValid_of_agreeOff agree options (has_choice.1 h).2 valid
  | .conditional ⟨branches, otherwise, _⟩, h, ⟨valid, rest⟩ => by
    obtain ⟨-, hbranches, hotherwise⟩ := has_conditional.1 h
    exact ⟨branchesValid_of_agreeOff agree branches hbranches valid,
      clauseValid_of_agreeOff agree otherwise hotherwise rest⟩

/-- Statements that do not mention some names are as valid whatever they mean. -/
theorem bodyValid_of_agreeOff {p : Place} {Γ Δ : Env} (agree : Γ.AgreeOff names Δ) :
    (body : List Statement) → BodyHas (Leaf.Avoids names) body →
      BodyValid k p Γ body → BodyValid k p Δ body
  | [], _, _ => trivial
  | s :: body, h, ⟨first, rest⟩ => by
    obtain ⟨hs, hbody⟩ := List.forall_mem_cons.1 h
    exact ⟨s.valid_of_agreeOff agree hs first,
      bodyValid_of_agreeOff (s.envAfter_agreeOff agree hs) body hbody rest⟩

private theorem handlerValid_of_agreeOff {p : Place} {Γ Δ : Env} (agree : Γ.AgreeOff names Δ) :
    (handler : Option Handler) → (∀ x ∈ handler, BodyHas (Leaf.Avoids names) x.body) →
      HandlerValid k p Γ handler → HandlerValid k p Δ handler
  | none, _, _ => trivial
  | some ⟨_, body, _⟩, h, valid =>
    bodyValid_of_agreeOff (agree.enter .bodyLocal _) body (h _ rfl) valid

private theorem clauseValid_of_agreeOff {p : Place} {Γ Δ : Env} (agree : Γ.AgreeOff names Δ) :
    (clause : Option Body) → (∀ x ∈ clause, BodyHas (Leaf.Avoids names) x.body) →
      ClauseValid k p Γ clause → ClauseValid k p Δ clause
  | none, _, _ => trivial
  | some ⟨body, _⟩, h, valid =>
    bodyValid_of_agreeOff (agree.enter .bodyLocal []) body (h _ rfl) valid

private theorem optionsValid_of_agreeOff {p : Place} {Γ Δ : Env} (agree : Γ.AgreeOff names Δ) :
    (options : List ChoiceOption) →
      (∀ o ∈ options, Leaf.Avoids names (.string o.label) ∧ BodyHas (Leaf.Avoids names) o.body) →
      OptionsValid k p Γ options → OptionsValid k p Δ options
  | [], _, _ => trivial
  | ⟨_, body, _⟩ :: options, h, ⟨label, valid, rest⟩ => by
    obtain ⟨⟨hlabel, hbody⟩, hrest⟩ := List.forall_mem_cons.1 h
    exact ⟨StringLit.valid_of_agreeOff agree hlabel label,
      bodyValid_of_agreeOff (agree.enter .bodyLocal []) body hbody valid,
      optionsValid_of_agreeOff agree options hrest rest⟩

private theorem branchesValid_of_agreeOff {p : Place} {Γ Δ : Env} (agree : Γ.AgreeOff names Δ) :
    (branches : List Branch) →
      (∀ b ∈ branches,
        Leaf.Avoids names (.discretion b.condition) ∧ BodyHas (Leaf.Avoids names) b.body) →
      BranchesValid k p Γ branches → BranchesValid k p Δ branches
  | [], _, _ => trivial
  | ⟨_, _, body, _⟩ :: branches, h, ⟨valid, rest⟩ => by
    obtain ⟨⟨-, hbody⟩, hrest⟩ := List.forall_mem_cons.1 h
    exact ⟨bodyValid_of_agreeOff (agree.enter .bodyLocal []) body hbody valid,
      branchesValid_of_agreeOff agree branches hrest rest⟩

private theorem Action.valid_of_agreeOff {p : Place} {Γ Δ : Env} (agree : Γ.AgreeOff names Δ) :
    (a : Action) → a.Has (Leaf.Avoids names) → a.Valid k p Γ → a.Valid k p Δ
  | .session _, h, valid => SessionOf.valid_of_agreeOff agree (has_session.1 h) valid
  | .pipe ⟨input, operations, _⟩, h, ⟨valid, rest⟩ => by
    obtain ⟨hinput, hoperations⟩ := has_pipe.1 h
    exact ⟨input.valid_of_agreeOff agree hinput valid,
      operationsValid_of_agreeOff agree operations hoperations rest⟩
  | .doBlock ⟨body, _⟩, h, valid =>
    bodyValid_of_agreeOff (agree.enter .bodyLocal []) body (has_doBlock.1 h) valid
  | .invoke ⟨_, args, _⟩, h, ⟨valid, defined⟩ =>
    ⟨valuesValid_of_agreeOff agree args (has_invoke.1 h).2 valid, defined⟩

private theorem operationsValid_of_agreeOff {p : Place} {Γ Δ : Env} (agree : Γ.AgreeOff names Δ) :
    (operations : List Operation) → (∀ o ∈ operations, o.Has (Leaf.Avoids names)) →
      OperationsValid k p Γ operations → OperationsValid k p Δ operations
  | [], _, _ => trivial
  | ⟨_, _, _, body, _⟩ :: operations, h, ⟨distinct, valid, rest⟩ => by
    obtain ⟨first, hrest⟩ := List.forall_mem_cons.1 h
    exact ⟨distinct,
      bodyValid_of_agreeOff (agree.enter .bodyLocal _) body (has_operation.1 first).2 valid,
      operationsValid_of_agreeOff agree operations hrest rest⟩

private theorem Expr.valid_of_agreeOff {p : Place} {Γ Δ : Env} (agree : Γ.AgreeOff names Δ) :
    (e : Expr) → e.Has (Leaf.Avoids names) → e.Valid k p Γ → e.Valid k p Δ
  | .action a, h, valid => a.valid_of_agreeOff agree (has_expr_action.1 h) valid
  | .string _, h, valid => StringLit.valid_of_agreeOff agree (has_expr_string.1 h) valid
  | .ident _, h, valid => agree.binds (has_expr_ident.1 h) valid
  | .array ⟨items, _⟩, h, valid => valuesValid_of_agreeOff agree items (has_expr_array.1 h) valid
  | .object ⟨entries, _⟩, h, valid =>
    entriesValid_of_agreeOff agree entries (has_expr_object.1 h) valid
  | .number _, _, valid | .discretion _, _, valid => valid

private theorem valuesValid_of_agreeOff {p : Place} {Γ Δ : Env} (agree : Γ.AgreeOff names Δ) :
    (es : List Expr) → (∀ e ∈ es, e.Has (Leaf.Avoids names)) →
      ValuesValid k p Γ es → ValuesValid k p Δ es
  | [], _, _ => trivial
  | e :: es, h, ⟨valid, rest⟩ => by
    obtain ⟨first, hrest⟩ := List.forall_mem_cons.1 h
    exact ⟨e.valid_of_agreeOff agree first valid, valuesValid_of_agreeOff agree es hrest rest⟩

private theorem entriesValid_of_agreeOff {p : Place} {Γ Δ : Env} (agree : Γ.AgreeOff names Δ) :
    (entries : List Entry) → (∀ e ∈ entries, e.Has (Leaf.Avoids names)) →
      EntriesValid k p Γ entries → EntriesValid k p Δ entries
  | [], _, _ => trivial
  | ⟨_, some value⟩ :: entries, h, ⟨valid, rest⟩ => by
    obtain ⟨⟨-, hvalue⟩, hrest⟩ := List.forall_mem_cons.1 h
    exact ⟨value.valid_of_agreeOff agree (hvalue value rfl) valid,
      entriesValid_of_agreeOff agree entries hrest rest⟩
  | ⟨_, none⟩ :: entries, h, ⟨bound, rest⟩ => by
    obtain ⟨⟨hkey, -⟩, hrest⟩ := List.forall_mem_cons.1 h
    exact ⟨agree.binds hkey bound, entriesValid_of_agreeOff agree entries hrest rest⟩

end

end

end ProseLang
