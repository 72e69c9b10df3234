import ProseLang.Canonical.Compilation
import ProseLang.Proofs.Canonical.Comments
import ProseLang.Proofs.Program.Recast

/-!
# Comments that are left behind

Leaving out the comments of a program leaves everything else as it is
(`uncommented_withoutComments`). It does not look into the collection of a loop, nor into the
settings of sessions and agents (`Visit.sealed`): the comments left in a program are those that
stand there (`mem_commentStatements_withoutComments`).
-/

namespace ProseLang

/-- The comment that a part is. -/
def Visit.comment? : Visit → Option Comment
  | statement (.comment c) => some c
  | _ => none

private theorem comment_not_mem_bindingLeaves (c : Comment) (b : Option AsBinding) :
    .comment c ∉ bindingLeaves b := by
  cases b <;> simp [bindingLeaves]

/-- A part has a comment among its leaves only if it is that comment. -/
theorem Visit.comment?_of_mem_leaves {v : Visit} {c : Comment} (h : .comment c ∈ v.leaves) :
    v.comment? = some c := by
  cases v with
  | statement s =>
    cases s with
    | comment d =>
      obtain rfl : c = d := by simpa using h
      rfl
    | conditional t => rcases t with ⟨_ | ⟨b, branches⟩, _, _⟩ <;> simp at h
    | _ => simp [comment_not_mem_bindingLeaves] at h
  | action a => cases a <;> simp at h
  | value e => cases e <;> simp at h
  | _ => simp at h

/-- The parts within a part that keep their comments: those of the collection that a loop goes over,
and those of the settings of sessions and agents. -/
def Visit.sealed : Visit → List Visit
  | statement (.forEach f) => f.collection.visits fun _ ↦ true
  | statement (.agent a) =>
    permissionVisits (fun _ ↦ true) a.permissions ++ propertyVisits (fun _ ↦ true) a.properties
  | action (.session s) => propertyVisits (fun _ ↦ true) s.properties
  | _ => []

/-- The comments among the statements of a program, at any depth. -/
def Program.commentStatements (p : Program) : List Comment := p.visits.filterMap Visit.comment?

/-! ## What is not a comment -/

mutual

private theorem Statement.uncommented_withoutComments :
    (s : Statement) → s.withoutComments.recasts .uncommenting = s.recasts .uncommenting
  | .comment _ | .importSkill _ | .agent _ | .throw _ => rfl
  | .block ⟨_, _, body, _⟩ => by
    simp only [Statement.withoutComments, Statement.recasts, bodyUncommented_withoutComments body]
  | .binding _ ⟨_, value, _⟩ => by
    simp only [Statement.withoutComments, Statement.recasts, value.uncommented_withoutComments]
  | .assignment ⟨_, value, _⟩ => by
    simp only [Statement.withoutComments, Statement.recasts, value.uncommented_withoutComments]
  | .action a => by
    simp only [Statement.withoutComments, Statement.recasts, a.uncommented_withoutComments]
  | .parallel ⟨_, _, _, _, body, _⟩ => by
    simp only [Statement.withoutComments, Statement.recasts, bodyUncommented_withoutComments body]
  | .repeated ⟨_, _, body, _⟩ => by
    simp only [Statement.withoutComments, Statement.recasts, bodyUncommented_withoutComments body]
  | .forEach ⟨_, _, _, _, _, _, body, _⟩ => by
    simp only [Statement.withoutComments, Statement.recasts, bodyUncommented_withoutComments body]
  | .loop ⟨_, _, _, _, body, _⟩ => by
    simp only [Statement.withoutComments, Statement.recasts, bodyUncommented_withoutComments body]
  | .attempt ⟨body, handler, cleanup, _⟩ => by
    simp only [Statement.withoutComments, Statement.recasts, bodyUncommented_withoutComments body,
      handlerUncommented_withoutComments handler, clauseUncommented_withoutComments cleanup]
  | .choice ⟨_, options, _⟩ => by
    simp only [Statement.withoutComments, Statement.recasts,
      optionsUncommented_withoutComments options]
  | .conditional ⟨branches, otherwise, _⟩ => by
    simp only [Statement.withoutComments, Statement.recasts,
      branchesUncommented_withoutComments branches, clauseUncommented_withoutComments otherwise]

private theorem bodyUncommented_withoutComments :
    (body : List Statement) →
      bodyRecasts .uncommenting (bodyWithoutComments body) = bodyRecasts .uncommenting body
  | [] => rfl
  | s :: body => by
    rw [bodyWithoutComments]
    split
    · next isComment =>
      cases s with
      | comment c => exact bodyUncommented_withoutComments body
      | _ => cases isComment
    · rw [bodyRecasts, bodyRecasts, s.uncommented_withoutComments,
        bodyUncommented_withoutComments body]

private theorem handlerUncommented_withoutComments :
    (handler : Option Handler) →
      handlerRecasts .uncommenting (handlerWithoutComments handler)
        = handlerRecasts .uncommenting handler
  | none => rfl
  | some ⟨_, body, _⟩ => by
    simp only [handlerWithoutComments, handlerRecasts, bodyUncommented_withoutComments body]

private theorem clauseUncommented_withoutComments :
    (clause : Option Body) →
      clauseRecasts .uncommenting (clauseWithoutComments clause)
        = clauseRecasts .uncommenting clause
  | none => rfl
  | some ⟨body, _⟩ => by
    simp only [clauseWithoutComments, clauseRecasts, bodyUncommented_withoutComments body]

private theorem optionsUncommented_withoutComments :
    (options : List ChoiceOption) →
      optionRecasts .uncommenting (optionsWithoutComments options)
        = optionRecasts .uncommenting options
  | [] => rfl
  | ⟨_, body, _⟩ :: options => by
    simp only [optionsWithoutComments, optionRecasts, bodyUncommented_withoutComments body,
      optionsUncommented_withoutComments options]

private theorem branchesUncommented_withoutComments :
    (branches : List Branch) →
      branchRecasts .uncommenting (branchesWithoutComments branches)
        = branchRecasts .uncommenting branches
  | [] => rfl
  | ⟨_, _, body, _⟩ :: branches => by
    simp only [branchesWithoutComments, branchRecasts, bodyUncommented_withoutComments body,
      branchesUncommented_withoutComments branches]

private theorem Action.uncommented_withoutComments :
    (a : Action) → a.withoutComments.recasts .uncommenting = a.recasts .uncommenting
  | .session _ => rfl
  | .pipe ⟨input, operations, _⟩ => by
    simp only [Action.withoutComments, Action.recasts, input.uncommented_withoutComments,
      operationsUncommented_withoutComments operations]
  | .doBlock ⟨body, _⟩ => by
    simp only [Action.withoutComments, Action.recasts, bodyUncommented_withoutComments body]
  | .invoke ⟨_, args, _⟩ => by
    simp only [Action.withoutComments, Action.recasts, valuesUncommented_withoutComments args]

private theorem operationsUncommented_withoutComments :
    (operations : List Operation) →
      operationRecasts .uncommenting (operationsWithoutComments operations)
        = operationRecasts .uncommenting operations
  | [] => rfl
  | ⟨_, _, _, body, _⟩ :: operations => by
    simp only [operationsWithoutComments, operationRecasts, bodyUncommented_withoutComments body,
      operationsUncommented_withoutComments operations]

private theorem Expr.uncommented_withoutComments :
    (e : Expr) → e.withoutComments.recasts .uncommenting = e.recasts .uncommenting
  | .action a => by
    simp only [Expr.withoutComments, Expr.recasts, a.uncommented_withoutComments]
  | .array ⟨items, _⟩ => by
    simp only [Expr.withoutComments, Expr.recasts, valuesUncommented_withoutComments items]
  | .object ⟨entries, _⟩ => by
    simp only [Expr.withoutComments, Expr.recasts, entriesUncommented_withoutComments entries]
  | .string _ | .number _ | .ident _ | .discretion _ => rfl

private theorem valuesUncommented_withoutComments :
    (es : List Expr) →
      valueRecasts .uncommenting (valuesWithoutComments es) = valueRecasts .uncommenting es
  | [] => rfl
  | e :: es => by
    simp only [valuesWithoutComments, valueRecasts, e.uncommented_withoutComments,
      valuesUncommented_withoutComments es]

private theorem entriesUncommented_withoutComments :
    (es : List Entry) →
      entryRecasts .uncommenting (entriesWithoutComments es) = entryRecasts .uncommenting es
  | [] => rfl
  | ⟨_, some value⟩ :: es => by
    simp only [entriesWithoutComments, entryRecasts, value.uncommented_withoutComments,
      entriesUncommented_withoutComments es]
  | ⟨_, none⟩ :: es => by
    simp only [entriesWithoutComments, entryRecasts, entriesUncommented_withoutComments es]

end

/-- Apart from comments, a program is the same without them. -/
theorem uncommented_withoutComments (p : Program) :
    uncommented p.withoutComments = uncommented p := by
  have none : List.filterMap (fun _ : Comment ↦
    (Option.none : Option Comment)) p.comments = [] := by
    simp
  change Program.mk (bodyRecasts .uncommenting (bodyWithoutComments p.statements)) [] p.span
    = ⟨bodyRecasts .uncommenting p.statements, p.comments.filterMap fun _ ↦ Option.none, p.span⟩
  rw [bodyUncommented_withoutComments, none]

/-! ## What is left -/

/-- The comments among parts. -/
def commentsAmong (vs : List Visit) : List Comment := vs.filterMap Visit.comment?

/-- The comments among the parts that keep their comments, of some parts. -/
def sealedComments (vs : List Visit) : List Comment := commentsAmong (vs.flatMap Visit.sealed)

/-- There are no comments among no parts. -/
@[simp] theorem commentsAmong_nil : commentsAmong [] = [] := rfl

/-- The comments among parts one after the other. -/
@[simp] theorem commentsAmong_append (vs ws : List Visit) :
    commentsAmong (vs ++ ws) = commentsAmong vs ++ commentsAmong ws :=
  List.filterMap_append

private theorem commentsAmong_cons {v : Visit} (h : v.comment? = none) (vs : List Visit) :
    commentsAmong (v :: vs) = commentsAmong vs :=
  List.filterMap_cons_none h

/-- The comments within values among parts one after the other. -/
@[simp] theorem sealedComments_append (vs ws : List Visit) :
    sealedComments (vs ++ ws) = sealedComments vs ++ sealedComments ws := by
  simp [sealedComments]

private theorem sealedComments_cons (v : Visit) (vs : List Visit) :
    sealedComments (v :: vs) = commentsAmong v.sealed ++ sealedComments vs := by
  simp [sealedComments]

/-- A string has no comments. -/
@[simp] theorem commentsAmong_strings (s : Option StringLit) :
    commentsAmong (Visit.strings s) = [] := by
  cases s <;> rfl

/-- Whether the comments that some parts keep are among these parts. -/
def KeepsAmong (vs : List Visit) : Prop := sealedComments vs ⊆ commentsAmong vs

/-- Whether the comments among the parts after a change are those that the parts before it keep. -/
structure LeavesBehind (before after : List Visit) : Prop where
  among : KeepsAmong before
  left : ∀ c, c ∈ commentsAmong after ↔ c ∈ sealedComments before

section

variable {v w : Visit} {vs ws vs' ws' : List Visit}

namespace KeepsAmong

private theorem nil : KeepsAmong [] := List.nil_subset _

private theorem append (h : KeepsAmong vs) (h' : KeepsAmong ws) : KeepsAmong (vs ++ ws) := by
  rw [KeepsAmong, sealedComments_append, commentsAmong_append]
  exact List.append_subset.2 ⟨fun c hc ↦ List.mem_append_left _ (h hc),
    fun c hc ↦ List.mem_append_right _ (h' hc)⟩

/-- A part that seals nothing. -/
theorem plain (open_ : v.sealed = []) (h : KeepsAmong vs) : KeepsAmong (v :: vs) := by
  rw [KeepsAmong, sealedComments_cons, open_]
  exact List.Subset.trans h ((List.sublist_cons_self v vs).filterMap _).subset

end KeepsAmong

namespace LeavesBehind

private theorem nil : LeavesBehind [] [] := ⟨.nil, fun _ ↦ .rfl⟩

private theorem append (h : LeavesBehind vs vs') (h' : LeavesBehind ws ws') :
    LeavesBehind (vs ++ ws) (vs' ++ ws') := by
  refine ⟨h.among.append h'.among, fun c ↦ ?_⟩
  rw [commentsAmong_append, sealedComments_append, List.mem_append, List.mem_append, h.left,
    h'.left]

/-- A part that seals nothing, and what becomes of it. -/
theorem plain (open_ : v.sealed = []) (code : w.comment? = none) (h : LeavesBehind vs ws) :
    LeavesBehind (v :: vs) (w :: ws) := by
  refine ⟨h.among.plain open_, fun c ↦ ?_⟩
  rw [commentsAmong_cons code, h.left, sealedComments_cons, open_, commentsAmong_nil,
    List.nil_append]

/-- A part that seals whatever has comments within it. -/
theorem shut (code : v.comment? = none) (all : commentsAmong v.sealed = commentsAmong vs)
    (h : KeepsAmong vs) : LeavesBehind (v :: vs) (v :: vs) := by
  refine ⟨?_, fun c ↦ ?_⟩
  · rw [KeepsAmong, sealedComments_cons, commentsAmong_cons code, all]
    exact List.append_subset.2 ⟨List.Subset.refl _, h⟩
  · rw [sealedComments_cons, commentsAmong_cons code, all, List.mem_append]
    exact ⟨.inl, fun hc ↦ hc.elim id fun hc ↦ h hc⟩

/-- A loop seals its collection, and its body is changed. -/
theorem halfShut (codeBefore : v.comment? = none) (code : w.comment? = none) (here : v.sealed = vs)
    (h : KeepsAmong vs) (hbody : LeavesBehind ws ws') :
    LeavesBehind (v :: (vs ++ ws)) (w :: (vs ++ ws')) := by
  refine ⟨?_, fun c ↦ ?_⟩
  · rw [KeepsAmong, sealedComments_cons, commentsAmong_cons codeBefore, here, sealedComments_append,
      commentsAmong_append]
    refine List.append_subset.2 ⟨List.subset_append_left _ _, ?_⟩
    exact List.append_subset.2 ⟨fun c hc ↦ List.mem_append_left _ (h hc),
      fun c hc ↦ List.mem_append_right _ (hbody.among hc)⟩
  · rw [commentsAmong_cons code, commentsAmong_append, sealedComments_cons, here,
      sealedComments_append, List.mem_append, List.mem_append, List.mem_append, hbody.left]
    exact ⟨fun hc ↦ hc.imp_right .inr, fun hc ↦ hc.elim .inl fun hc ↦ hc.imp_left fun hc ↦ h hc⟩

private theorem strings (s : Option StringLit) :
    LeavesBehind (Visit.strings s) (Visit.strings s) := by
  cases s with
  | none => exact nil
  | some s => exact nil.plain rfl rfl

end LeavesBehind

end

open LeavesBehind

mutual

private theorem Statement.leavesBehind : (s : Statement) → s.isComment = false →
    LeavesBehind (.statement s :: s.visits fun _ ↦ true)
      (.statement s.withoutComments :: s.withoutComments.visits fun _ ↦ true)
  | .comment _, h => by cases h
  | .importSkill _, _ => ((nil.plain rfl rfl).plain rfl rfl).plain rfl rfl
  | .agent ⟨_, _, prompt, _, permissions, properties, _, _⟩, _ => by
    refine shut rfl ?_ (((strings prompt).among.append
      (permissionVisits_keepsAmong permissions)).append (propertyVisits_keepsAmong properties))
    rw [Statement.visits]
    simp [Visit.sealed]
  | .block ⟨_, _, body, _⟩, _ => (bodyVisits_leavesBehind body).plain rfl rfl
  | .binding _ ⟨_, value, _⟩, _ => value.leavesBehind.plain rfl rfl
  | .assignment ⟨_, value, _⟩, _ => value.leavesBehind.plain rfl rfl
  | .action a, _ => a.leavesBehind.plain rfl rfl
  | .parallel ⟨_, _, _, _, body, _⟩, _ => (bodyVisits_leavesBehind body).plain rfl rfl
  | .repeated ⟨_, _, body, _⟩, _ => (bodyVisits_leavesBehind body).plain rfl rfl
  | .forEach ⟨_, _, collection, _, _, _, body, _⟩, _ =>
    halfShut rfl rfl rfl collection.leavesBehind.among (bodyVisits_leavesBehind body)
  | .loop ⟨none, _, _, _, body, _⟩, _ => (bodyVisits_leavesBehind body).plain rfl rfl
  | .loop ⟨some _, _, _, _, body, _⟩, _ =>
    ((bodyVisits_leavesBehind body).plain rfl rfl).plain rfl rfl
  | .attempt ⟨body, handler, cleanup, _⟩, _ =>
    (((bodyVisits_leavesBehind body).append (handlerVisits_leavesBehind handler)).append
      (clauseVisits_leavesBehind cleanup)).plain rfl rfl
  | .throw t, _ => (strings t.message).plain rfl rfl
  | .choice ⟨_, options, _⟩, _ => ((optionVisits_leavesBehind options).plain rfl rfl).plain rfl rfl
  | .conditional ⟨branches, otherwise, _⟩, _ =>
    ((branchVisits_leavesBehind branches).append (clauseVisits_leavesBehind otherwise)).plain
      rfl rfl

/-- What is left of the comments in a body are those that its parts keep. -/
theorem bodyVisits_leavesBehind :
    (body : List Statement) →
      LeavesBehind (bodyVisits (fun _ ↦ true) body)
        (bodyVisits (fun _ ↦ true) (bodyWithoutComments body))
  | [] => nil
  | s :: body => by
    have rest := bodyVisits_leavesBehind body
    cases comment : s.isComment with
    | true =>
      rw [bodyWithoutComments_comment comment]
      cases s with
      | comment c => exact ⟨(rest.among.plain rfl).plain rfl, rest.left⟩
      | _ => cases comment
    | false =>
      rw [bodyWithoutComments_cons comment]
      exact (s.leavesBehind comment).append (rest.plain rfl rfl)

private theorem handlerVisits_leavesBehind :
    (handler : Option Handler) →
      LeavesBehind (handlerVisits (fun _ ↦ true) handler)
        (handlerVisits (fun _ ↦ true) (handlerWithoutComments handler))
  | none => nil
  | some ⟨_, body, _⟩ => bodyVisits_leavesBehind body

private theorem clauseVisits_leavesBehind :
    (clause : Option Body) →
      LeavesBehind (clauseVisits (fun _ ↦ true) clause)
        (clauseVisits (fun _ ↦ true) (clauseWithoutComments clause))
  | none => nil
  | some ⟨body, _⟩ => bodyVisits_leavesBehind body

private theorem optionVisits_leavesBehind :
    (options : List ChoiceOption) →
      LeavesBehind (optionVisits (fun _ ↦ true) options)
        (optionVisits (fun _ ↦ true) (optionsWithoutComments options))
  | [] => nil
  | ⟨_, body, _⟩ :: options =>
    ((bodyVisits_leavesBehind body).append (optionVisits_leavesBehind options)).plain rfl rfl

private theorem branchVisits_leavesBehind :
    (branches : List Branch) →
      LeavesBehind (branchVisits (fun _ ↦ true) branches)
        (branchVisits (fun _ ↦ true) (branchesWithoutComments branches))
  | [] => nil
  | ⟨_, _, body, _⟩ :: branches =>
    ((bodyVisits_leavesBehind body).append (branchVisits_leavesBehind branches)).plain rfl rfl

private theorem Action.leavesBehind : (a : Action) →
    LeavesBehind (.action a :: a.visits fun _ ↦ true)
      (.action a.withoutComments :: a.withoutComments.visits fun _ ↦ true)
  | .session ⟨_, prompt, _, _, _, context, _, _, properties, _, _, _⟩ => by
    have settings := (propertyVisits_keepsAmong properties).plain (v := .context context) rfl
    refine shut rfl ?_ ((strings prompt).among.append settings)
    rw [Action.visits]
    simp [Visit.sealed, commentsAmong_cons (v := .context context) rfl]
  | .pipe ⟨input, operations, _⟩ =>
    (input.leavesBehind.append (operationVisits_leavesBehind operations)).plain rfl rfl
  | .doBlock ⟨body, _⟩ => (bodyVisits_leavesBehind body).plain rfl rfl
  | .invoke ⟨_, args, _⟩ => (valueVisits_leavesBehind args).plain rfl rfl

private theorem operationVisits_leavesBehind :
    (operations : List Operation) →
      LeavesBehind (operationVisits (fun _ ↦ true) operations)
        (operationVisits (fun _ ↦ true) (operationsWithoutComments operations))
  | [] => nil
  | ⟨_, _, _, body, _⟩ :: operations =>
    ((bodyVisits_leavesBehind body).plain rfl rfl).append (operationVisits_leavesBehind operations)

private theorem Expr.leavesBehind : (e : Expr) →
    LeavesBehind (e.visits fun _ ↦ true) (e.withoutComments.visits fun _ ↦ true)
  | .action a => a.leavesBehind
  | .array ⟨items, _⟩ => (valueVisits_leavesBehind items).plain rfl rfl
  | .object ⟨entries, _⟩ => (entryVisits_leavesBehind entries).plain rfl rfl
  | .number _ => nil.plain rfl rfl
  | .string _ | .ident _ | .discretion _ => (nil.plain rfl rfl).plain rfl rfl

private theorem valueVisits_leavesBehind :
    (es : List Expr) →
      LeavesBehind (valueVisits (fun _ ↦ true) es)
        (valueVisits (fun _ ↦ true) (valuesWithoutComments es))
  | [] => nil
  | e :: es => e.leavesBehind.append (valueVisits_leavesBehind es)

private theorem entryVisits_leavesBehind :
    (es : List Entry) →
      LeavesBehind (entryVisits (fun _ ↦ true) es)
        (entryVisits (fun _ ↦ true) (entriesWithoutComments es))
  | [] => nil
  | ⟨_, some value⟩ :: es => value.leavesBehind.append (entryVisits_leavesBehind es)
  | ⟨_, none⟩ :: es => (entryVisits_leavesBehind es).plain rfl rfl

private theorem propertyVisits_keepsAmong :
    (ps : List Property) → KeepsAmong (propertyVisits (fun _ ↦ true) ps)
  | [] => .nil
  | ⟨_, value, _⟩ :: ps =>
    (value.visits_keepsAmong.plain rfl).append (propertyVisits_keepsAmong ps)

private theorem permissionVisits_keepsAmong :
    (permissions : Option (List Property)) →
      KeepsAmong (permissionVisits (fun _ ↦ true) permissions)
  | none => .nil
  | some ps => propertyVisits_keepsAmong ps

private theorem PropertyValue.visits_keepsAmong :
    (value : PropertyValue) → KeepsAmong (value.visits fun _ ↦ true)
  | .expr e => e.leavesBehind.among
  | .context _ => .plain rfl .nil
  | .nested ps => propertyVisits_keepsAmong ps

end

/-- The comments left in a program stand in collections of loops and in settings. -/
theorem mem_commentStatements_withoutComments (p : Program) (c : Comment) :
    c ∈ p.withoutComments.commentStatements ↔ c ∈ sealedComments p.visits :=
  (bodyVisits_leavesBehind p.statements).left c

end ProseLang
