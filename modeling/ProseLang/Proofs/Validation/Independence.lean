import ProseLang.Proofs.Validation.Agreement

/-!
# Independent branches

Branches of a parallel block stand in one scope and are checked one after the other, so a later one
may use what an earlier one declares. Two of them are independent if neither mentions what the other
one declares (`Statement.Independent`). Independent neighbours may trade places (`Trades`): the
branches stay valid (`Trades.bodyValid`), and names mean the same after them
(`Trades.bodyEnvAfter`).
-/

namespace ProseLang

mutual

/-- The names that a statement declares for those that follow. -/
def Statement.declares : Statement → List String
  | .binding _ ⟨name, _, _⟩ | .assignment ⟨name, _, _⟩ => [name.val]
  | .action a => (a.resultName?.map Located.val).toList
  | .parallel ⟨_, _, _, _, body, _⟩ => bodyDeclares body
  | _ => []

/-- The names that statements declare for those that follow. -/
def bodyDeclares : List Statement → List String
  | [] => []
  | s :: body => s.declares ++ bodyDeclares body

end

/-- Whether neither of two statements mentions a name that the other one declares. -/
structure Statement.Independent (s t : Statement) : Prop where
  left : t.Has (Leaf.Avoids s.declares)
  right : s.Has (Leaf.Avoids t.declares)

instance (s t : Statement) : Decidable (s.Independent t) :=
  decidable_of_iff (t.Has (Leaf.Avoids s.declares) ∧ s.Has (Leaf.Avoids t.declares))
    ⟨fun ⟨left, right⟩ ↦ ⟨left, right⟩, fun h ↦ ⟨h.left, h.right⟩⟩

/-- Whether some statements become others by independent neighbours trading places. -/
inductive Trades : List Statement → List Statement → Prop
  | nil : Trades [] []
  | cons (s : Statement) {body body' : List Statement} (h : Trades body body') :
      Trades (s :: body) (s :: body')
  | swap {s t : Statement} (body : List Statement) (h : s.Independent t) :
      Trades (s :: t :: body) (t :: s :: body)
  | trans {body body' body'' : List Statement} (first : Trades body body')
      (second : Trades body' body'') : Trades body body''

namespace Env

private theorem extend_comm (scope : String → Option Declaration) {x y : Ident}
    {kind kind' : SymbolKind} (h : x.val ≠ y.val) :
    extend (extend scope x kind) y kind' = extend (extend scope y kind') x kind := by
  funext other
  simp only [extend, Option.or_assoc]
  congr 1
  split
  · next first =>
    have second : y.val ≠ other := fun same ↦ h (first.trans same.symm)
    simp [second]
  · simp

/-- Declarations of different names may change places. -/
theorem bind_comm (Γ : Env) {x y : Ident} {kind kind' : SymbolKind} (h : x.val ≠ y.val) :
    (Γ.bind x kind).bind y kind' = (Γ.bind y kind').bind x kind := by
  simp only [bind, List.headD_cons, List.tail_cons, extend_comm _ h]

end Env

mutual

/-- A statement changes the meaning of no name but those that it declares. -/
theorem Statement.envAfter_agreeOff_declares {names : List String} (isBranch : Bool) (Γ : Env) :
    (s : Statement) → s.declares ⊆ names → (s.envAfter isBranch Γ).AgreeOff names Γ
  | .binding _ ⟨_, _, _⟩, h => .bind_left _ (h List.mem_cons_self)
  | .assignment ⟨_, _, _⟩, h => by
    rw [Statement.envAfter]
    split
    · exact .bind_left _ (h List.mem_cons_self)
    · exact .refl Γ
  | .action (.session s), h => by
    rw [Statement.envAfter]
    split
    · next name named =>
      apply Env.AgreeOff.bind_left
      exact h (by simp [Statement.declares, Action.resultName?, named])
    · exact .refl Γ
  | .parallel ⟨_, _, _, _, body, _⟩, h => bodyEnvAfter_agreeOff_declares true Γ body h
  | .comment _, _ | .importSkill _, _ | .agent _, _ | .block _, _ | .repeated _, _ | .forEach _, _
  | .loop _, _ | .attempt _, _ | .throw _, _ | .choice _, _ | .conditional _, _
  | .action (.pipe _), _ | .action (.doBlock _), _ | .action (.invoke _), _ => .refl Γ

private theorem bodyEnvAfter_agreeOff_declares {names : List String} (isBranch : Bool) (Γ : Env) :
    (body : List Statement) → bodyDeclares body ⊆ names →
      (bodyEnvAfter isBranch Γ body).AgreeOff names Γ
  | [], _ => .refl Γ
  | s :: body, h => by
    obtain ⟨first, rest⟩ := List.append_subset.1 h
    exact (bodyEnvAfter_agreeOff_declares isBranch _ body rest).trans
      (s.envAfter_agreeOff_declares isBranch Γ first)

end

mutual

/-- The declaration of a name and a statement that does not declare it may change places. -/
theorem Statement.envAfter_bind {x : Ident} (kind : SymbolKind) (isBranch : Bool) (Γ : Env) :
    (s : Statement) → x.val ∉ s.declares →
      s.envAfter isBranch (Γ.bind x kind) = (s.envAfter isBranch Γ).bind x kind
  | .binding _ ⟨_, _, _⟩, h => Γ.bind_comm (List.ne_of_not_mem_cons h)
  | .assignment ⟨name, _, _⟩, h => by
    have ne : x.val ≠ name.val := List.ne_of_not_mem_cons h
    have same : (Γ.bind x kind).resolve name.val = Γ.resolve name.val :=
      (Env.AgreeOff.bind_left kind (List.mem_singleton_self _)).resolve (by simpa using ne.symm)
    rw [Statement.envAfter, Statement.envAfter, same]
    split
    · exact Γ.bind_comm ne
    · rfl
  | .action (.session s), h => by
    rw [Statement.envAfter, Statement.envAfter]
    split
    · next name named =>
      apply Γ.bind_comm
      rintro same
      exact h (by simp [Statement.declares, Action.resultName?, named, same])
    · rfl
  | .parallel ⟨_, _, _, _, body, _⟩, h => bodyEnvAfter_bind kind true Γ body h
  | .comment _, _ | .importSkill _, _ | .agent _, _ | .block _, _ | .repeated _, _ | .forEach _, _
  | .loop _, _ | .attempt _, _ | .throw _, _ | .choice _, _ | .conditional _, _
  | .action (.pipe _), _ | .action (.doBlock _), _ | .action (.invoke _), _ => rfl

private theorem bodyEnvAfter_bind {x : Ident} (kind : SymbolKind) (isBranch : Bool) (Γ : Env) :
    (body : List Statement) → x.val ∉ bodyDeclares body →
      bodyEnvAfter isBranch (Γ.bind x kind) body = (bodyEnvAfter isBranch Γ body).bind x kind
  | [], _ => rfl
  | s :: body, h => by
    obtain ⟨first, rest⟩ := not_or.1 (mt List.mem_append.2 h)
    rw [bodyEnvAfter, bodyEnvAfter, s.envAfter_bind kind isBranch Γ first,
      bodyEnvAfter_bind kind isBranch _ body rest]

end

section

variable {t : Statement} {isBranch' : Bool}

mutual

/-- Statements that declare different names may change places as far as what names mean after
them. -/
theorem Statement.envAfter_comm (isBranch : Bool) (Γ : Env) :
    (s : Statement) → (∀ x ∈ s.declares, x ∉ t.declares) →
      t.envAfter isBranch' (s.envAfter isBranch Γ) = s.envAfter isBranch (t.envAfter isBranch' Γ)
  | .binding _ ⟨_, _, _⟩, h => t.envAfter_bind _ isBranch' Γ (h _ List.mem_cons_self)
  | .assignment ⟨name, _, _⟩, h => by
    have apart := h name.val List.mem_cons_self
    have same : (t.envAfter isBranch' Γ).resolve name.val = Γ.resolve name.val :=
      (t.envAfter_agreeOff_declares isBranch' Γ (List.Subset.refl _)).resolve apart
    rw [Statement.envAfter, Statement.envAfter, same]
    split
    · exact t.envAfter_bind _ isBranch' Γ apart
    · rfl
  | .action (.session s), h => by
    rw [Statement.envAfter, Statement.envAfter]
    split
    · next name named =>
      apply t.envAfter_bind
      exact h name.val (by simp [Statement.declares, Action.resultName?, named])
    · rfl
  | .parallel ⟨_, _, _, _, body, _⟩, h => bodyEnvAfter_comm true Γ body h
  | .comment _, _ | .importSkill _, _ | .agent _, _ | .block _, _ | .repeated _, _ | .forEach _, _
  | .loop _, _ | .attempt _, _ | .throw _, _ | .choice _, _ | .conditional _, _
  | .action (.pipe _), _ | .action (.doBlock _), _ | .action (.invoke _), _ => rfl

private theorem bodyEnvAfter_comm (isBranch : Bool) (Γ : Env) :
    (body : List Statement) → (∀ x ∈ bodyDeclares body, x ∉ t.declares) →
      t.envAfter isBranch' (bodyEnvAfter isBranch Γ body)
        = bodyEnvAfter isBranch (t.envAfter isBranch' Γ) body
  | [], _ => rfl
  | s :: body, h => by
    obtain ⟨first, rest⟩ := List.forall_mem_append.1 h
    rw [bodyEnvAfter, bodyEnvAfter, bodyEnvAfter_comm isBranch _ body rest,
      s.envAfter_comm isBranch Γ first]

end

end

section

variable {names : List String}

mutual

/-- What a statement declares is among the names that it mentions. -/
theorem Statement.declares_avoid :
    (s : Statement) → s.Has (Leaf.Avoids names) → ∀ x ∈ s.declares, x ∉ names
  | .binding _ ⟨_, _, _⟩, h => List.forall_mem_singleton.2 (has_binding.1 h).1
  | .assignment ⟨_, _, _⟩, h => List.forall_mem_singleton.2 (has_assignment.1 h).1
  | .action (.session s), h => by
    have name := (has_session.1 (has_statement_action.1 h)).name
    intro x hx
    obtain ⟨y, named, rfl⟩ : ∃ y, s.name = some y ∧ y.val = x := by
      simpa [Statement.declares, Action.resultName?] using hx
    exact name y named
  | .parallel ⟨_, _, _, _, body, _⟩, h => bodyDeclares_avoid body (has_parallel.1 h).2
  | .comment _, _ | .importSkill _, _ | .agent _, _ | .block _, _ | .repeated _, _ | .forEach _, _
  | .loop _, _ | .attempt _, _ | .throw _, _ | .choice _, _ | .conditional _, _
  | .action (.pipe _), _ | .action (.doBlock _), _ | .action (.invoke _), _ => nofun

private theorem bodyDeclares_avoid :
    (body : List Statement) → BodyHas (Leaf.Avoids names) body → ∀ x ∈ bodyDeclares body, x ∉ names
  | [], _ => nofun
  | s :: body, h => by
    obtain ⟨first, rest⟩ := List.forall_mem_cons.1 h
    exact List.forall_mem_append.2 ⟨s.declares_avoid first, bodyDeclares_avoid body rest⟩

end

end

private theorem Statement.Independent.symm {s t : Statement} (h : s.Independent t) :
    t.Independent s :=
  ⟨h.right, h.left⟩

private theorem Statement.Independent.envAfter_comm {s t : Statement} (h : s.Independent t)
    (isBranch : Bool) (Γ : Env) :
    t.envAfter isBranch (s.envAfter isBranch Γ) = s.envAfter isBranch (t.envAfter isBranch Γ) :=
  Statement.envAfter_comm isBranch Γ s (s.declares_avoid h.right)

namespace Trades

variable {body body' : List Statement}

/-- Branches trade for themselves. -/
theorem refl (body : List Statement) : Trades body body := by
  induction body with
  | nil => exact .nil
  | cons s _ ih => exact .cons s ih

/-- A trade of branches can be undone. -/
theorem symm (h : Trades body body') : Trades body' body := by
  induction h with
  | nil => exact .nil
  | cons s _ ih => exact .cons s ih
  | swap body h => exact .swap body h.symm
  | trans _ _ first second => exact second.trans first

/-- Branches that trade are the same up to order. -/
theorem perm (h : Trades body body') : body.Perm body' := by
  induction h with
  | nil => exact .nil
  | cons s _ ih => exact .cons s ih
  | swap body _ => exact .swap _ _ body
  | trans _ _ first second => exact first.trans second

/-- Statements each two of which are independent may be put in any order. -/
theorem of_perm (h : body.Perm body') (apart : body.Pairwise Statement.Independent) :
    Trades body body' := by
  induction h with
  | nil => exact .nil
  | cons s _ ih => exact .cons s (ih (List.pairwise_cons.1 apart).2)
  | swap s t body =>
    have neighbours := (List.pairwise_cons.1 apart).1 s List.mem_cons_self
    exact .swap body neighbours
  | trans first _ ih ih' =>
    exact .trans (ih apart) (ih' (first.pairwise apart fun h ↦ h.symm))

/-- Branches that trade leave the same environment. -/
theorem bodyEnvAfter (h : Trades body body') (isBranch : Bool) (Γ : Env) :
    bodyEnvAfter isBranch Γ body' = bodyEnvAfter isBranch Γ body := by
  induction h generalizing Γ with
  | nil => rfl
  | cons s _ ih => exact ih _
  | swap body h =>
    simp only [ProseLang.bodyEnvAfter, h.envAfter_comm]
  | trans _ _ first second => exact (second Γ).trans (first Γ)

/-- Branches that trade places stay valid. -/
theorem bodyValid {k : Knowledge} {p : Place} (closed : p.importsOpen = false)
    (h : Trades body body') {Γ : Env} (valid : BodyValid k p Γ body) : BodyValid k p Γ body' := by
  have past (s : Statement) : p.past s = p := by
    obtain ⟨isBranch, inHandler, nested, importsOpen⟩ := p
    obtain rfl : importsOpen = false := closed
    cases s <;> rfl
  induction h generalizing Γ with
  | nil => trivial
  | cons s _ ih =>
    obtain ⟨first, rest⟩ := valid
    rw [past] at rest
    refine ⟨first, ?_⟩
    rw [past]
    exact ih rest
  | @swap s t body h =>
    obtain ⟨first, second, rest⟩ := valid
    simp only [past] at second rest
    have before := s.envAfter_agreeOff_declares p.isBranch Γ (List.Subset.refl _)
    have behind := t.envAfter_agreeOff_declares p.isBranch Γ (List.Subset.refl _)
    refine ⟨t.valid_of_agreeOff before h.left second, ?_, ?_⟩
    · rw [past]
      exact s.valid_of_agreeOff behind.symm h.right first
    · rw [past, past, ← h.envAfter_comm]
      exact rest
  | trans _ _ first second => exact second (first valid)

end Trades

end ProseLang
