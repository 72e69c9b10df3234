import ProseLang.Canonical.Names

/-!
# Looking into more of a program

Whoever looks into more parts of a program sees all that others see, in the same order
(`bodyVisits_sublist`). So what is bound outside of settings is bound (`Program.boundNames_subset`).
-/

namespace ProseLang

/-- Every name that a program binds, in the settings of sessions and agents too. -/
def Program.allNames (p : Program) : List String :=
  (p.visits.flatMap Visit.boundNames).map Located.val

section

-- the theorems of the mutual block share the hypothesis, and some need it for the others only
set_option linter.unusedSectionVars false

variable {inside inside' : Visit → Bool}

private theorem Visit.opened_sublist {v : Visit} {within within' : List Visit}
    (h : inside v = true → inside' v = true) (hw : within.Sublist within') :
    (opened inside v within).Sublist (opened inside' v within') := by
  unfold opened
  apply List.Sublist.cons_cons
  split
  · next here =>
    rw [if_pos (h here)]
    exact hw
  · exact List.nil_sublist _

variable (more : ∀ v, inside v = true → inside' v = true)
include more

mutual

private theorem Statement.visits_sublist :
    (s : Statement) → (s.visits inside).Sublist (s.visits inside')
  | .comment _ | .importSkill _ | .throw _ => .refl _
  | .agent ⟨_, _, _, _, permissions, properties, _, _⟩ =>
    ((List.Sublist.refl _).append (permissionVisits_sublist permissions)).append
      (propertyVisits_sublist properties)
  | .block ⟨_, _, body, _⟩ => bodyVisits_sublist body
  | .binding _ ⟨_, value, _⟩ => value.visits_sublist
  | .assignment ⟨_, value, _⟩ => value.visits_sublist
  | .action a => Visit.opened_sublist (more _) a.visits_sublist
  | .parallel ⟨_, _, _, _, body, _⟩ => bodyVisits_sublist body
  | .repeated ⟨_, _, body, _⟩ => bodyVisits_sublist body
  | .forEach ⟨_, _, collection, _, _, _, body, _⟩ =>
    collection.visits_sublist.append (bodyVisits_sublist body)
  | .loop ⟨_, _, _, _, body, _⟩ => (List.Sublist.refl _).append (bodyVisits_sublist body)
  | .attempt ⟨body, handler, cleanup, _⟩ =>
    ((bodyVisits_sublist body).append (handlerVisits_sublist handler)).append
      (clauseVisits_sublist cleanup)
  | .choice ⟨_, options, _⟩ => (optionVisits_sublist options).cons_cons _
  | .conditional ⟨branches, otherwise, _⟩ =>
    (branchVisits_sublist branches).append (clauseVisits_sublist otherwise)

/-- Whoever looks into more parts sees all that others see. -/
theorem bodyVisits_sublist :
    (body : List Statement) → (bodyVisits inside body).Sublist (bodyVisits inside' body)
  | [] => .refl _
  | s :: body =>
    (Visit.opened_sublist (more _) s.visits_sublist).append ((bodyVisits_sublist body).cons_cons _)

private theorem handlerVisits_sublist :
    (handler : Option Handler) → (handlerVisits inside handler).Sublist
    (handlerVisits inside' handler)
  | none => .refl _
  | some ⟨_, body, _⟩ => bodyVisits_sublist body

private theorem clauseVisits_sublist :
    (clause : Option Body) → (clauseVisits inside clause).Sublist (clauseVisits inside' clause)
  | none => .refl _
  | some ⟨body, _⟩ => bodyVisits_sublist body

private theorem optionVisits_sublist :
    (options : List ChoiceOption) →
      (optionVisits inside options).Sublist (optionVisits inside' options)
  | [] => .refl _
  | ⟨_, body, _⟩ :: options =>
    ((bodyVisits_sublist body).append (optionVisits_sublist options)).cons_cons _

private theorem branchVisits_sublist :
    (branches : List Branch) → (branchVisits inside branches).Sublist
    (branchVisits inside' branches)
  | [] => .refl _
  | ⟨_, _, body, _⟩ :: branches =>
    ((bodyVisits_sublist body).append (branchVisits_sublist branches)).cons_cons _

private theorem Action.visits_sublist : (a : Action) → (a.visits inside).Sublist (a.visits inside')
  | .session ⟨_, _, _, _, _, _, _, _, properties, _, _, _⟩ =>
    (List.Sublist.refl _).append ((propertyVisits_sublist properties).cons_cons _)
  | .pipe ⟨input, operations, _⟩ => input.visits_sublist.append (operationVisits_sublist operations)
  | .doBlock ⟨body, _⟩ => bodyVisits_sublist body
  | .invoke ⟨_, args, _⟩ => valueVisits_sublist args

private theorem operationVisits_sublist :
    (operations : List Operation) →
      (operationVisits inside operations).Sublist (operationVisits inside' operations)
  | [] => .refl _
  | ⟨_, _, _, body, _⟩ :: operations =>
    (Visit.opened_sublist (more _) (bodyVisits_sublist body)).append
      (operationVisits_sublist operations)

private theorem Expr.visits_sublist : (e : Expr) → (e.visits inside).Sublist (e.visits inside')
  | .action a => Visit.opened_sublist (more _) a.visits_sublist
  | .array ⟨items, _⟩ => (valueVisits_sublist items).cons_cons _
  | .object ⟨entries, _⟩ => (entryVisits_sublist entries).cons_cons _
  | .string _ | .number _ | .ident _ | .discretion _ => .refl _

private theorem valueVisits_sublist :
    (es : List Expr) → (valueVisits inside es).Sublist (valueVisits inside' es)
  | [] => .refl _
  | e :: es => e.visits_sublist.append (valueVisits_sublist es)

private theorem entryVisits_sublist :
    (es : List Entry) → (entryVisits inside es).Sublist (entryVisits inside' es)
  | [] => .refl _
  | ⟨_, some value⟩ :: es => value.visits_sublist.append (entryVisits_sublist es)
  | ⟨_, none⟩ :: es => (entryVisits_sublist es).cons_cons _

private theorem propertyVisits_sublist :
    (ps : List Property) → (propertyVisits inside ps).Sublist (propertyVisits inside' ps)
  | [] => .refl _
  | ⟨_, value, _⟩ :: ps =>
    (Visit.opened_sublist (more _) value.visits_sublist).append (propertyVisits_sublist ps)

private theorem permissionVisits_sublist :
    (permissions : Option (List Property)) →
      (permissionVisits inside permissions).Sublist (permissionVisits inside' permissions)
  | none => .refl _
  | some ps => propertyVisits_sublist ps

private theorem PropertyValue.visits_sublist :
    (value : PropertyValue) → (value.visits inside).Sublist (value.visits inside')
  | .expr e => e.visits_sublist
  | .context _ => .refl _
  | .nested ps => propertyVisits_sublist ps

end

end

/-- What is bound outside of settings is bound. -/
theorem Program.boundNames_subset (p : Program) : p.boundNames ⊆ p.allNames := by
  have seen : (bodyVisits outsideDefinitions p.statements).Sublist p.visits :=
    bodyVisits_sublist (fun _ _ ↦ rfl) p.statements
  intro name bound
  obtain ⟨ident, found, rfl⟩ := List.mem_map.1 bound
  obtain ⟨v, part, binds⟩ := List.mem_flatMap.1 found
  exact List.mem_map_of_mem (List.mem_flatMap.2 ⟨v, seen.subset part, binds⟩)

/-! ## Statements of a body -/

/-- The parts of a statement are among those of its body. -/
theorem opened_subset_bodyVisits {inside : Visit → Bool} {s : Statement} {body : List Statement}
    (h : s ∈ body) : Visit.opened inside (.statement s) (s.visits inside) ⊆ bodyVisits inside
    body := by
  induction body with
  | nil => cases h
  | cons t body ih =>
    rcases List.mem_cons.1 h with rfl | later
    · exact List.subset_append_left _ _
    · intro v hv
      exact List.mem_append_right _ (List.mem_cons_of_mem _ (ih later hv))

/-- A statement is among the parts of its body. -/
theorem statement_mem_bodyVisits {inside : Visit → Bool} {s : Statement} {body : List Statement}
    (h : s ∈ body) : .statement s ∈ bodyVisits inside body :=
  opened_subset_bodyVisits h List.mem_cons_self

/-- A part of a body is one of its statements, the end of one, or within one. -/
theorem exists_statement_of_mem_bodyVisits {v : Visit} {body : List Statement}
    (h : v ∈ bodyVisits (fun _ ↦ true) body) :
    v = .statementEnd ∨ ∃ s ∈ body, v = .statement s ∨ v ∈ s.visits fun _ ↦ true := by
  induction body with
  | nil => cases h
  | cons s body ih =>
    rcases List.mem_append.1 h with here | later
    · exact .inr ⟨s, List.mem_cons_self, List.mem_cons.1 here⟩
    · rcases List.mem_cons.1 later with ends | later
      · exact .inl ends
      · exact (ih later).imp_right fun ⟨t, ht, within⟩ ↦ ⟨t, List.mem_cons_of_mem s ht, within⟩

/-- The parallel block that a statement is. -/
def Statement.parallel? : Statement → Option Parallel
  | .parallel b => some b
  | _ => none

/-- A statement that is a parallel block is the block. -/
theorem Statement.eq_of_parallel? {s : Statement} {b : Parallel} (h : s.parallel? = some b) :
    s = .parallel b := by
  cases s with
  | parallel c =>
    obtain rfl : c = b := Option.some.inj h
    rfl
  | _ => cases h

/-! ## Parts within parts -/

/-- The parts within a part that is a statement. -/
def Visit.within : Visit → List Visit
  | statement s => s.visits fun _ ↦ true
  | _ => []

/-- Whether some parts have among them whatever is within their statements. -/
def HoldsWithin (vs : List Visit) : Prop := ∀ v ∈ vs, v.within ⊆ vs

namespace HoldsWithin

variable {v : Visit} {vs ws : List Visit}

private theorem nil : HoldsWithin [] := fun _ hv ↦ absurd hv List.not_mem_nil

private theorem append (h : HoldsWithin vs) (h' : HoldsWithin ws) : HoldsWithin (vs ++ ws) := by
  refine List.forall_mem_append.2 ⟨fun v hv ↦ ?_, fun v hv ↦ ?_⟩
  · exact List.Subset.trans (h v hv) (List.subset_append_left _ _)
  · exact List.Subset.trans (h' v hv) (List.subset_append_right _ _)

/-- A part in front of the parts within it. -/
theorem cons (here : v.within ⊆ vs) (h : HoldsWithin vs) : HoldsWithin (v :: vs) := by
  refine List.forall_mem_cons.2 ⟨?_, fun w hw ↦ ?_⟩
  · exact List.Subset.trans here (List.subset_cons_self _ _)
  · exact List.Subset.trans (h w hw) (List.subset_cons_self _ _)

/-- A part that is no statement. -/
theorem plain (none : v.within = []) (h : HoldsWithin vs) : HoldsWithin (v :: vs) :=
  h.cons (none ▸ List.nil_subset _)

private theorem strings (s : Option StringLit) : HoldsWithin (Visit.strings s) := by
  cases s with
  | none => exact nil
  | some s => exact nil.plain rfl

end HoldsWithin

open HoldsWithin

mutual

private theorem Statement.visits_holdsWithin : (s : Statement) → HoldsWithin (s.visits fun _ ↦ true)
  | .comment _ => nil
  | .importSkill _ => (nil.plain rfl).plain rfl
  | .agent ⟨_, _, prompt, _, permissions, properties, _, _⟩ =>
    ((strings prompt).append (permissionVisits_holdsWithin permissions)).append
      (propertyVisits_holdsWithin properties)
  | .block ⟨_, _, body, _⟩ => bodyVisits_holdsWithin body
  | .binding _ ⟨_, value, _⟩ => value.visits_holdsWithin
  | .assignment ⟨_, value, _⟩ => value.visits_holdsWithin
  | .action a => a.visits_holdsWithin.plain rfl
  | .parallel ⟨_, _, _, _, body, _⟩ => bodyVisits_holdsWithin body
  | .repeated ⟨_, _, body, _⟩ => bodyVisits_holdsWithin body
  | .forEach ⟨_, _, collection, _, _, _, body, _⟩ =>
    collection.visits_holdsWithin.append (bodyVisits_holdsWithin body)
  | .loop ⟨none, _, _, _, body, _⟩ => bodyVisits_holdsWithin body
  | .loop ⟨some _, _, _, _, body, _⟩ => (bodyVisits_holdsWithin body).plain rfl
  | .attempt ⟨body, handler, cleanup, _⟩ =>
    ((bodyVisits_holdsWithin body).append (handlerVisits_holdsWithin handler)).append
      (clauseVisits_holdsWithin cleanup)
  | .throw t => strings t.message
  | .choice ⟨_, options, _⟩ => (optionVisits_holdsWithin options).plain rfl
  | .conditional ⟨branches, otherwise, _⟩ =>
    (branchVisits_holdsWithin branches).append (clauseVisits_holdsWithin otherwise)

/-- Whatever is within the statements of a body, at any depth, is among its parts. -/
theorem bodyVisits_holdsWithin :
    (body : List Statement) → HoldsWithin (bodyVisits (fun _ ↦ true) body)
  | [] => nil
  | s :: body =>
    (cons (v := .statement s) (List.Subset.refl _) s.visits_holdsWithin).append
      ((bodyVisits_holdsWithin body).plain rfl)

private theorem handlerVisits_holdsWithin :
    (handler : Option Handler) → HoldsWithin (handlerVisits (fun _ ↦ true) handler)
  | none => nil
  | some ⟨_, body, _⟩ => bodyVisits_holdsWithin body

private theorem clauseVisits_holdsWithin :
    (clause : Option Body) → HoldsWithin (clauseVisits (fun _ ↦ true) clause)
  | none => nil
  | some ⟨body, _⟩ => bodyVisits_holdsWithin body

private theorem optionVisits_holdsWithin :
    (options : List ChoiceOption) → HoldsWithin (optionVisits (fun _ ↦ true) options)
  | [] => nil
  | ⟨_, body, _⟩ :: options =>
    ((bodyVisits_holdsWithin body).append (optionVisits_holdsWithin options)).plain rfl

private theorem branchVisits_holdsWithin :
    (branches : List Branch) → HoldsWithin (branchVisits (fun _ ↦ true) branches)
  | [] => nil
  | ⟨_, _, body, _⟩ :: branches =>
    ((bodyVisits_holdsWithin body).append (branchVisits_holdsWithin branches)).plain rfl

private theorem Action.visits_holdsWithin : (a : Action) → HoldsWithin (a.visits fun _ ↦ true)
  | .session ⟨_, prompt, _, _, _, _, _, _, properties, _, _, _⟩ =>
    (strings prompt).append ((propertyVisits_holdsWithin properties).plain rfl)
  | .pipe ⟨input, operations, _⟩ =>
    input.visits_holdsWithin.append (operationVisits_holdsWithin operations)
  | .doBlock ⟨body, _⟩ => bodyVisits_holdsWithin body
  | .invoke ⟨_, args, _⟩ => valueVisits_holdsWithin args

private theorem operationVisits_holdsWithin :
    (operations : List Operation) → HoldsWithin (operationVisits (fun _ ↦ true) operations)
  | [] => nil
  | ⟨_, _, _, body, _⟩ :: operations =>
    ((bodyVisits_holdsWithin body).plain rfl).append (operationVisits_holdsWithin operations)

private theorem Expr.visits_holdsWithin : (e : Expr) → HoldsWithin (e.visits fun _ ↦ true)
  | .action a => a.visits_holdsWithin.plain rfl
  | .array ⟨items, _⟩ => (valueVisits_holdsWithin items).plain rfl
  | .object ⟨entries, _⟩ => (entryVisits_holdsWithin entries).plain rfl
  | .number _ => nil.plain rfl
  | .string _ | .ident _ | .discretion _ => (nil.plain rfl).plain rfl

private theorem valueVisits_holdsWithin :
    (es : List Expr) → HoldsWithin (valueVisits (fun _ ↦ true) es)
  | [] => nil
  | e :: es => e.visits_holdsWithin.append (valueVisits_holdsWithin es)

private theorem entryVisits_holdsWithin :
    (es : List Entry) → HoldsWithin (entryVisits (fun _ ↦ true) es)
  | [] => nil
  | ⟨_, some value⟩ :: es => value.visits_holdsWithin.append (entryVisits_holdsWithin es)
  | ⟨_, none⟩ :: es => (entryVisits_holdsWithin es).plain rfl

private theorem propertyVisits_holdsWithin :
    (ps : List Property) → HoldsWithin (propertyVisits (fun _ ↦ true) ps)
  | [] => nil
  | ⟨_, value, _⟩ :: ps =>
    (value.visits_holdsWithin.plain rfl).append (propertyVisits_holdsWithin ps)

private theorem permissionVisits_holdsWithin :
    (permissions : Option (List Property)) →
      HoldsWithin (permissionVisits (fun _ ↦ true) permissions)
  | none => nil
  | some ps => propertyVisits_holdsWithin ps

private theorem PropertyValue.visits_holdsWithin :
    (value : PropertyValue) → HoldsWithin (value.visits fun _ ↦ true)
  | .expr e => e.visits_holdsWithin
  | .context _ => nil.plain rfl
  | .nested ps => propertyVisits_holdsWithin ps

end

end ProseLang
