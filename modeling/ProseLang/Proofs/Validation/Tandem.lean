import ProseLang.Proofs.Program.Visits
import ProseLang.Proofs.Validation.Usage
import ProseLang.Validation.Result

/-!
# Two checks of one program

Two checks of a program that know different things may make different findings, but they carry the
same scopes along: what a check finds has no effect on what it does next. So a relation between
their findings that each step keeps (`Knowledge.Relates`) holds at the end (`rawFindings_relates`).
A step may rely on the scopes: no name is twice in one, and its let and const bindings are those of
the program (`Scopes.Binds`).
-/

namespace ProseLang

/-- Whether options say if the issue is noted. -/
def Issue.isOptional : Issue → Bool
  | unknownModel _ | unresolvedSkill _ | todoComment _ | unusedBinding _ => true
  | _ => false

/-- The name of a symbol, where it is declared. -/
def Symbol.ident (x : Symbol) : Ident := ⟨x.name, x.span⟩

/-- The finding, if something is the case. -/
def Finding.onlyIf (condition : Bool) (issue : Issue) (span : Span) : List Finding :=
  if condition then [⟨issue, span⟩] else []

/-- The name of a let or const binding. -/
def Visit.bound? : Visit → Option Ident
  | .statement (.binding _ b) => some b.name
  | _ => none

/-- Whether the let and const bindings among some parts have a property. -/
def Bind (N : Ident → Prop) (vs : List Visit) : Prop := ∀ v ∈ vs, ∀ x ∈ v.bound?, N x

section

variable {N : Ident → Prop} {vs ws : List Visit}

/-- The bindings among parts are those among the first and those among the last. -/
@[simp] theorem bind_append : Bind N (vs ++ ws) ↔ Bind N vs ∧ Bind N ws := List.forall_mem_append

/-- The bindings among parts are that of the first one and those among the rest. -/
@[simp] theorem bind_cons {v : Visit} : Bind N (v :: vs) ↔ (∀ x ∈ v.bound?, N x) ∧ Bind N vs :=
  List.forall_mem_cons

/-- The bindings of a part are its own and those within it. -/
@[simp] theorem bind_opened {v : Visit} :
    Bind N (Visit.opened (fun _ ↦ true) v vs) ↔ (∀ x ∈ v.bound?, N x) ∧ Bind N vs := bind_cons

end

/-! ## Scopes -/

namespace Scopes

/-- Whether no name is twice in a scope and the let and const bindings have a property. -/
structure Binds (N : Ident → Prop) (ss : Scopes) : Prop where
  proper : ss.Proper
  bound : ∀ s ∈ ss, ∀ x ∈ s, x.kind.isBinding = true → N x.ident

namespace Binds

variable {N : Ident → Prop} {ss : Scopes}

private theorem markUsed (h : ss.Binds N) (name : String) : (ss.markUsed name).Binds N := by
  refine ⟨h.proper.markUsed name, ?_⟩
  have bound := h.bound
  clear h
  induction ss with
  | nil => exact bound
  | cons s ss ih =>
    obtain ⟨first, rest⟩ := List.forall_mem_cons.1 bound
    rw [Scopes.markUsed]
    split
    · refine List.forall_mem_cons.2 ⟨?_, rest⟩
      rw [Scope.markUsed, List.forall_mem_map]
      intro x hx
      split
      · exact first x hx
      · exact first x hx
    · exact List.forall_mem_cons.2 ⟨first, ih rest⟩

private theorem declare (h : ss.Binds N) {x : Symbol} (hx : x.kind.isBinding = true → N x.ident) :
    (ss.declare x).1.Binds N := by
  refine ⟨h.proper.declare x, ?_⟩
  cases ss with
  | nil => exact List.forall_mem_singleton.2 (List.forall_mem_singleton.2 hx)
  | cons s ss =>
    rw [Scopes.declare]
    split
    · exact h.bound
    · obtain ⟨first, rest⟩ := List.forall_mem_cons.1 h.bound
      refine List.forall_mem_cons.2 ⟨?_, rest⟩
      exact List.forall_mem_append.2 ⟨first, List.forall_mem_singleton.2 hx⟩

private theorem openScope (h : ss.Binds N) : Scopes.Binds N ([] :: ss) where
  proper := List.forall_mem_cons.2 ⟨List.nodup_nil, h.proper⟩
  bound := List.forall_mem_cons.2 ⟨fun _ hx ↦ absurd hx List.not_mem_nil, h.bound⟩

private theorem tail (h : ss.Binds N) : Scopes.Binds N ss.tail where
  proper s hs := h.proper s (List.mem_of_mem_tail hs)
  bound s hs := h.bound s (List.mem_of_mem_tail hs)

/-- The innermost scope, if there is one. -/
theorem head (h : ss.Binds N) :
    ((ss.headD []).map Symbol.name).Nodup
      ∧ ∀ x ∈ ss.headD [], x.kind.isBinding = true → N x.ident := by
  cases ss with
  | nil => exact ⟨List.nodup_nil, fun _ hx ↦ absurd hx List.not_mem_nil⟩
  | cons s ss => exact ⟨h.proper s List.mem_cons_self, h.bound s List.mem_cons_self⟩

end Binds

end Scopes

/-! ## Steps -/

section

variable (R : List Finding → List Finding → Prop) (N : Ident → Prop)

/-- Whether two checks have come to the same scopes, and to findings in a relation. -/
structure CheckState.Related (σ τ : CheckState) : Prop where
  scopes : τ.scopes = σ.scopes
  binds : σ.scopes.Binds N
  findings : R σ.findings τ.findings

/-- Whether two checks keep a relation between their findings. -/
def Check.Relates (c d : Check Unit) : Prop :=
  ∀ σ τ : CheckState, σ.Related R N τ → (c.run σ).2.Related R N (d.run τ).2

/-- Whether a relation between findings is kept by the steps of checks with different knowledge: by
a finding that both make, by those that depend on options, and by the end of a scope. -/
structure Knowledge.Relates (k l : Knowledge) : Prop where
  hasAgent : ∀ name, l.definitions.hasAgent name = k.definitions.hasAgent name
  hasSkill : ∀ name, l.definitions.hasSkill name = k.definitions.hasSkill name
  arity : ∀ name, l.definitions.arity? name = k.definitions.arity? name
  both : ∀ {fs gs : List Finding} {f : Finding}, f.issue.isOptional = false →
    R fs gs → R (fs ++ [f]) (gs ++ [f])
  model : ∀ {fs gs : List Finding} (name : String) (span : Span), R fs gs →
    R (fs ++ Finding.onlyIf (!k.options.isKnownModel name) (.unknownModel name) span)
      (gs ++ Finding.onlyIf (!l.options.isKnownModel name) (.unknownModel name) span)
  skill : ∀ {fs gs : List Finding} (name : String) (span : Span), R fs gs →
    R (fs ++ Finding.onlyIf (!k.options.resolves name) (.unresolvedSkill name) span)
      (gs ++ Finding.onlyIf (!l.options.resolves name) (.unresolvedSkill name) span)
  unused : ∀ {fs gs : List Finding} {s : Scope}, (s.map Symbol.name).Nodup →
    (∀ x ∈ s, x.kind.isBinding = true → N x.ident) → R fs gs →
    R (fs ++ Check.unusedFindings k s) (gs ++ Check.unusedFindings l s)

end

namespace Check

/-- A note is made if its condition holds, and nothing else changes. -/
theorem noteIf_run (condition : Bool) (issue : Issue) (span : Span) (σ : CheckState) :
    ((noteIf condition issue span).run σ).2
      = { σ with findings := σ.findings ++ Finding.onlyIf condition issue span } := by
  cases condition with
  | true => rfl
  | false =>
    rw [Finding.onlyIf, if_neg Bool.false_ne_true, List.append_nil]
    rfl

section

variable {R : List Finding → List Finding → Prop} {N : Ident → Prop} {k l : Knowledge}
  {c c' d d' : Check Unit}

namespace Relates

private theorem pure : Relates R N (pure ()) (pure ()) := fun _ _ h ↦ h

private theorem seq (hc : Relates R N c d) (hd : Relates R N c' d') :
    Relates R N (do c; c') (do d; d') := fun σ τ h ↦ hd _ _ (hc σ τ h)

/-- Checks of the elements of a list keep the relation when each of them does. -/
theorem forM {α : Type} {f g : α → Check Unit} {xs : List α} (h : ∀ x, Relates R N (f x) (g x)) :
    Relates R N (xs.forM f) (xs.forM g) := by
  induction xs with
  | nil => exact pure
  | cons x xs ih => exact (h x).seq ih

private theorem optionForM {α : Type} {f g : α → Check Unit} {x : Option α}
    (h : ∀ x, Relates R N (f x) (g x)) : Relates R N (x.forM f) (x.forM g) := by
  cases x with
  | none => exact pure
  | some x => exact h x

/-- Marking a name as used keeps the relation. -/
theorem markUsed (name : String) : Relates R N (Check.markUsed name) (Check.markUsed name) := by
  intro σ τ h
  refine ⟨?_, h.binds.markUsed name, h.findings⟩
  change Scopes.markUsed name τ.scopes = _
  rw [h.scopes]
  rfl

private theorem openScope : Relates R N Check.openScope Check.openScope := fun _ _ h ↦
  ⟨congrArg ([] :: ·) h.scopes, h.binds.openScope, h.findings⟩

end Relates

variable (h : Knowledge.Relates R N k l)
include h

/-! ### What both checks find -/

private theorem note_relates {issue : Issue} {span : Span} (common : issue.isOptional = false) :
    Relates R N (note issue span) (note issue span) := fun _ _ related ↦
  ⟨related.scopes, related.binds, h.both common related.findings⟩

private theorem noteIf_relates {condition : Bool} {issue : Issue} {span : Span}
    (common : issue.isOptional = false) :
    Relates R N (noteIf condition issue span) (noteIf condition issue span) := by
  cases condition with
  | true => exact note_relates h common
  | false => exact .pure

private theorem useName_relates (use : NameUse) (name : Ident) :
    Relates R N (useName use name) (useName use name) := by
  have report (bound : Bool) : Relates R N
      (if bound then markUsed name.val else note (.undefinedVariable name.val use) name.span)
      (if bound then markUsed name.val else note (.undefinedVariable name.val use) name.span) := by
    cases bound with
    | true => exact .markUsed name.val
    | false => exact note_relates h rfl
  intro σ τ related
  have same := report (σ.scopes.binds name.val) σ τ related
  rw [useName]
  simp only [StateT.run_bind, StateT.run_get, pure_bind]
  rw [related.scopes]
  exact same

private theorem string_relates (s : StringLit) : Relates R N (string s) (string s) :=
  .forM (useName_relates h .interpolation)

private theorem context_relates (x : Context) : Relates R N (context x) (context x) :=
  .forM (useName_relates h .context)

private theorem declare_relates {name : Ident} {kind : SymbolKind}
    (bound : kind.isBinding = true → N name)
    (written : Bool) : Relates R N (declare name kind written) (declare name kind written) := by
  intro σ τ related
  have binds := related.binds.declare (x := ⟨name.val, kind, name.span, false⟩) bound
  rw [declare]
  simp only [StateT.run_bind, StateT.run_get, StateT.run_set, pure_bind]
  rw [related.scopes]
  generalize σ.scopes.declare ⟨name.val, kind, name.span, false⟩ = result at binds
  obtain ⟨ss, declared⟩ := result
  have after : CheckState.Related R N { σ with scopes := ss } { τ with scopes := ss } :=
    ⟨rfl, binds, related.findings⟩
  cases declared with
  | fresh => exact after
  | duplicate first =>
    refine note_relates h ?_ _ _ after
    split <;> rfl
  | shadows outer => exact noteIf_relates h rfl _ _ after

/-- What no let or const binding introduces. -/
theorem declare_relates_of_not {name : Ident} {kind : SymbolKind} (other : kind.isBinding = false)
    (written : Bool) : Relates R N (declare name kind written) (declare name kind written) :=
  declare_relates h (fun binding ↦ Bool.noConfusion (other ▸ binding)) written

private theorem unknownProperties_relates (owner : PropertyOwner) (properties : List Property) :
    Relates R N (unknownProperties owner properties) (unknownProperties owner properties) :=
  .forM fun _ ↦ note_relates h rfl

private theorem parallel_relates (p : Parallel) : Relates R N (parallel p) (parallel p) := by
  refine .seq ?_ (noteIf_relates h rfl)
  refine .seq (.optionForM fun _ ↦ noteIf_relates h rfl) ?_
  refine .seq (.optionForM fun _ ↦ noteIf_relates h rfl) ?_
  refine .seq (.optionForM fun _ ↦ .seq (noteIf_relates h rfl) (noteIf_relates h rfl)) ?_
  exact .optionForM fun _ ↦ noteIf_relates h rfl

private theorem assignment_relates (p : Place) (name : Ident) (span : Span) :
    Relates R N (assignment p name span) (assignment p name span) := by
  intro σ τ related
  rw [assignment]
  simp only [StateT.run_bind, StateT.run_get, pure_bind]
  rw [related.scopes]
  split
  · split
    · exact declare_relates_of_not h rfl true σ τ related
    · exact note_relates h rfl σ τ related
  · split
    · exact note_relates h rfl σ τ related
    · exact note_relates h rfl σ τ related
    · exact related

/-! ### What the two checks find for themselves -/

private theorem model_relates (m : Ident) : Relates R N (model k m) (model l m) := by
  intro σ τ related
  rw [model, model, noteIf_run, noteIf_run]
  exact ⟨related.scopes, related.binds, h.model m.val m.span related.findings⟩

private theorem skills_relates (names : List Ident) :
    Relates R N (skills k names) (skills l names) := by
  refine .forM fun name ↦ ?_
  rw [h.hasSkill]
  exact noteIf_relates h rfl

private theorem agent_relates (a : Agent) : Relates R N (agent k a) (agent l a) := by
  have permission (p : Property) : Relates R N (permission p) (permission p) := by
    rw [Check.permission]
    split
    · exact noteIf_relates h rfl
    · exact note_relates h rfl
  refine .seq (noteIf_relates h rfl) ?_
  refine .seq (.optionForM (model_relates h)) ?_
  refine .seq (skills_relates h a.skills) ?_
  exact .seq (.forM permission) (unknownProperties_relates h .agent a.properties)

private theorem importSkill_relates (p : Place) (i : Import) :
    Relates R N (importSkill k p i) (importSkill l p i) := by
  refine .seq (noteIf_relates h rfl) fun σ τ related ↦ ?_
  rw [noteIf_run, noteIf_run]
  exact ⟨related.scopes, related.binds, h.skill i.skill.value i.skill.span related.findings⟩

private theorem session_relates (s : Session) : Relates R N (session k s) (session l s) := by
  have agent (a : Ident) : Relates R N
      (noteIf (!k.definitions.hasAgent a.val) (.undefinedAgent a.val) a.span)
      (noteIf (!l.definitions.hasAgent a.val) (.undefinedAgent a.val) a.span) := by
    rw [h.hasAgent]
    exact noteIf_relates h rfl
  refine .seq (noteIf_relates h rfl) ?_
  refine .seq (.optionForM agent) ?_
  refine .seq (.optionForM (model_relates h)) ?_
  refine .seq (skills_relates h _) ?_
  refine .seq (.optionForM fun _ ↦ noteIf_relates h rfl) ?_
  refine .seq (.optionForM fun _ ↦ noteIf_relates h rfl) ?_
  refine .seq (unknownProperties_relates h .session s.properties) ?_
  exact .seq (.optionForM (string_relates h)) (context_relates h s.context)

private theorem invocation_relates (i : Invocation) :
    Relates R N (invocation k i) (invocation l i) := by
  rw [invocation, invocation, h.arity]
  split
  · exact note_relates h rfl
  · exact noteIf_relates h rfl

/-- What is found when the innermost scope is closed. -/
theorem closing_related {σ τ : CheckState} (related : σ.Related R N τ) :
    R (σ.findings ++ unusedFindings k (σ.scopes.headD []))
      (τ.findings ++ unusedFindings l (τ.scopes.headD [])) := by
  obtain ⟨proper, bound⟩ := related.binds.head
  rw [related.scopes]
  exact h.unused proper bound related.findings

private theorem closeScope_relates : Relates R N (closeScope k) (closeScope l) := fun _ _ related ↦
  ⟨congrArg List.tail related.scopes, related.binds.tail, closing_related h related⟩

/-- A scope that starts with no let or const bindings. -/
theorem inScope_relates {ls : List Local} (locals : ∀ x ∈ ls, x.kind.isBinding = false)
    (body : Relates R N c d) : Relates R N (inScope k ls c) (inScope l ls d) := by
  have declared : Relates R N (declareLocals ls) (declareLocals ls) := by
    rw [declareLocals]
    induction ls with
    | nil => exact .pure
    | cons x ls ih =>
      obtain ⟨first, rest⟩ := List.forall_mem_cons.1 locals
      exact (declare_relates_of_not h first x.written).seq (ih rest)
  exact Relates.openScope.seq (declared.seq (body.seq (closeScope_relates h)))

private theorem inBlock_relates (body : Relates R N c d) :
    Relates R N (inScope k [] c) (inScope l [] d) :=
  inScope_relates h (fun _ hx ↦ absurd hx List.not_mem_nil) body

end

private theorem isBinding_operationLocals (o : Operation) :
    ∀ x ∈ operationLocals o, x.kind.isBinding = false := by
  have each (name : Option Ident) (default : String) (span : Span) :
      (Local.orDefault name default span).kind.isBinding = false := by
    cases name <;> rfl
  rw [operationLocals]
  split
  · exact List.forall_mem_cons.2 ⟨each _ _ _, List.forall_mem_singleton.2 (each _ _ _)⟩
  · exact List.forall_mem_singleton.2 (each _ _ _)

/-- The local of a header, if it has one. -/
theorem isBinding_headerLocal {α : Type} (name : Option α) (ident : α → Ident) :
    ∀ x ∈ (name.map fun y ↦ Local.ofIdent (ident y)).toList, x.kind.isBinding = false := by
  cases name <;> simp [Local.ofIdent, SymbolKind.isBinding]

/-! ## The pass -/

section

-- the theorems of the mutual block share the hypothesis, and some need it for the others only
set_option linter.unusedSectionVars false

variable {R : List Finding → List Finding → Prop} {N : Ident → Prop} {k l : Knowledge}
  (h : Knowledge.Relates R N k l)
include h

mutual

/-- A statement keeps the relation between the findings of two checks. -/
theorem statement_relates (p : Place) :
    (s : Statement) → Bind N (Visit.opened (fun _ ↦ true) (.statement s) (s.visits fun _ ↦ true)) →
      Relates R N (statement k p s) (statement l p s)
  | .comment _, _ => .pure
  | .importSkill i, _ => importSkill_relates h p i
  | .agent a, _ => agent_relates h a
  | .block ⟨_, _, body, _⟩, within =>
    inScope_relates h (by simp [SymbolKind.isBinding])
      (statements_relates p.inBody [] body (bind_opened.1 within).2)
  | .binding kind ⟨name, value, _⟩, within => by
    obtain ⟨own, inside⟩ := bind_opened.1 within
    exact (expr_relates p value inside).seq (declare_relates h (fun _ ↦ own name rfl) true)
  | .assignment ⟨name, value, span⟩, within =>
    (expr_relates p value (bind_opened.1 within).2).seq (assignment_relates h p name span)
  | .action a, within => by
    refine (action_relates p a (bind_opened.1 (bind_opened.1 within).2).2).seq ?_
    cases a with
    | session s => exact .optionForM fun _ ↦ declare_relates_of_not h rfl true
    | pipe | doBlock | invoke => exact .pure
  | .parallel ⟨join, onFail, count, keys, body, span⟩, within =>
    (parallel_relates h _).seq (statements_relates p.branches [] body (bind_opened.1 within).2)
  | .repeated ⟨_, index, body, _⟩, within =>
    .seq (noteIf_relates h rfl) (inScope_relates h (isBinding_headerLocal index AsBinding.name)
      (statements_relates p.inBody [] body (bind_opened.1 within).2))
  | .forEach ⟨_, index, collection, _, _, _, body, _⟩, within => by
    obtain ⟨inCollection, inBody⟩ := bind_append.1 (bind_opened.1 within).2
    refine (expr_relates p collection inCollection).seq (inScope_relates h ?_
      (statements_relates p.inBody [] body inBody))
    exact List.forall_mem_cons.2 ⟨rfl, isBinding_headerLocal index id⟩
  | .loop ⟨_, _, index, _, body, _⟩, within =>
    .seq (noteIf_relates h rfl) (inScope_relates h (isBinding_headerLocal index AsBinding.name)
      (statements_relates p.inBody [] body (bind_append.1 (bind_opened.1 within).2).2))
  | .attempt ⟨body, handler, cleanup, _⟩, within => by
    obtain ⟨others, inCleanup⟩ := bind_append.1 (bind_opened.1 within).2
    obtain ⟨inBody, inHandler⟩ := bind_append.1 others
    refine .seq (inBlock_relates h (statements_relates p.inBody [] body inBody)) ?_
    exact (handlerBody_relates p handler inHandler).seq (clauseBody_relates p cleanup inCleanup)
  | .throw ⟨some message, _⟩, _ => string_relates h message
  | .throw ⟨none, _⟩, _ => noteIf_relates h rfl
  | .choice ⟨_, options, _⟩, within =>
    optionBodies_relates p options (bind_cons.1 (bind_opened.1 within).2).2
  | .conditional ⟨branches, otherwise, _⟩, within => by
    obtain ⟨inBranches, inOtherwise⟩ := bind_append.1 (bind_opened.1 within).2
    exact (branchBodies_relates p branches inBranches).seq
      (clauseBody_relates p otherwise inOtherwise)

/-- Two checks of the same statements. -/
theorem statements_relates (p : Place) (before : List String) :
    (body : List Statement) → Bind N (bodyVisits (fun _ ↦ true) body) →
      Relates R N (statements k p before body) (statements l p before body)
  | [], _ => by
    rw [statements, statements]
    split
    · exact .forM .markUsed
    · exact .pure
  | s :: rest, within => by
    obtain ⟨here, later⟩ := bind_append.1 within
    have all := (statement_relates p s here).seq (statements_relates (p.past s)
      (if s.isExecutable then resultNames s else before) rest (bind_cons.1 later).2)
    rw [statements, statements]
    split
    · exact .seq (.forM .markUsed) all
    · exact all

private theorem handlerBody_relates (p : Place) :
    (handler : Option Handler) → Bind N (handlerVisits (fun _ ↦ true) handler) →
      Relates R N (handlerBody k p handler) (handlerBody l p handler)
  | none, _ => .pure
  | some ⟨error, body, _⟩, within =>
    inScope_relates h (isBinding_headerLocal error AsBinding.name)
      (statements_relates p.handling [] body within)

private theorem clauseBody_relates (p : Place) :
    (clause : Option Body) → Bind N (clauseVisits (fun _ ↦ true) clause) →
      Relates R N (clauseBody k p clause) (clauseBody l p clause)
  | none, _ => .pure
  | some ⟨body, _⟩, within => inBlock_relates h (statements_relates p.inBody [] body within)

private theorem optionBodies_relates (p : Place) :
    (options : List ChoiceOption) → Bind N (optionVisits (fun _ ↦ true) options) →
      Relates R N (optionBodies k p options) (optionBodies l p options)
  | [], _ => .pure
  | ⟨label, body, _⟩ :: options, within => by
    obtain ⟨inBody, later⟩ := bind_append.1 (bind_cons.1 within).2
    refine .seq (string_relates h label) ?_
    refine .seq (inBlock_relates h (statements_relates p.inBody [] body inBody)) ?_
    exact optionBodies_relates p options later

private theorem branchBodies_relates (p : Place) :
    (branches : List Branch) → Bind N (branchVisits (fun _ ↦ true) branches) →
      Relates R N (branchBodies k p branches) (branchBodies l p branches)
  | [], _ => .pure
  | ⟨_, _, body, _⟩ :: branches, within => by
    obtain ⟨inBody, later⟩ := bind_append.1 (bind_cons.1 within).2
    refine .seq (inBlock_relates h (statements_relates p.inBody [] body inBody)) ?_
    exact branchBodies_relates p branches later

private theorem action_relates (p : Place) :
    (a : Action) → Bind N (a.visits fun _ ↦ true) → Relates R N (action k p a) (action l p a)
  | .session s, _ => session_relates h s
  | .pipe ⟨input, operations, _⟩, within => by
    obtain ⟨inInput, inOperations⟩ := bind_append.1 within
    exact (expr_relates p input inInput).seq (operationBodies_relates p operations inOperations)
  | .doBlock ⟨body, _⟩, within => inBlock_relates h (statements_relates p.inBody [] body within)
  | .invoke ⟨_, args, _⟩, within => (exprs_relates p args within).seq (invocation_relates h _)

private theorem operationBodies_relates (p : Place) :
    (operations : List Operation) → Bind N (operationVisits (fun _ ↦ true) operations) →
      Relates R N (operationBodies k p operations) (operationBodies l p operations)
  | [], _ => .pure
  | ⟨operator, item, accumulator, body, span⟩ :: operations, within => by
    obtain ⟨here, later⟩ := bind_append.1 within
    refine .seq (inScope_relates h (isBinding_operationLocals _) ?_)
      (operationBodies_relates p operations later)
    exact statements_relates p.inBody [] body (bind_opened.1 here).2

private theorem expr_relates (p : Place) :
    (e : Expr) → Bind N (e.visits fun _ ↦ true) → Relates R N (expr k p e) (expr l p e)
  | .action a, within => action_relates p a (bind_opened.1 within).2
  | .string s, _ => string_relates h s
  | .number _, _ | .discretion _, _ => .pure
  | .ident name, _ => useName_relates h .value name
  | .array ⟨items, _⟩, within => exprs_relates p items (bind_cons.1 within).2
  | .object ⟨es, _⟩, within => entries_relates p es (bind_cons.1 within).2

private theorem exprs_relates (p : Place) :
    (es : List Expr) → Bind N (valueVisits (fun _ ↦ true) es) →
      Relates R N (exprs k p es) (exprs l p es)
  | [], _ => .pure
  | e :: es, within => by
    obtain ⟨here, later⟩ := bind_append.1 within
    exact (expr_relates p e here).seq (exprs_relates p es later)

private theorem entries_relates (p : Place) :
    (es : List Entry) → Bind N (entryVisits (fun _ ↦ true) es) →
      Relates R N (entries k p es) (entries l p es)
  | [], _ => .pure
  | ⟨_, some value⟩ :: es, within => by
    obtain ⟨here, later⟩ := bind_append.1 within
    exact (expr_relates p value here).seq (entries_relates p es later)
  | ⟨key, none⟩ :: es, within =>
    (useName_relates h .value key).seq (entries_relates p es (bind_cons.1 within).2)

end

end

end Check

/-- What is found before the pass over a program. -/
def startFindings (p : Program) (o : ValidatorOptions) : List Finding :=
  (Definitions.ofProgram p).findings
    ++ if o.warnOnTodoComments then commentFindings p.comments else []

/-- The scopes at the start of a program. -/
theorem Scopes.Binds.start {N : Ident → Prop} : Scopes.Binds N [[]] :=
  openScope ⟨fun _ hs ↦ absurd hs List.not_mem_nil, fun _ hs ↦ absurd hs List.not_mem_nil⟩

/-- Two checks of a program keep a relation to the end. -/
theorem rawFindings_relates {R : List Finding → List Finding → Prop} {N : Ident → Prop}
    {p : Program} {o o' : ValidatorOptions} {e e' : Enumeration}
    (h : Knowledge.Relates R N ⟨o, .ofProgram p, e⟩ ⟨o', .ofProgram p, e'⟩)
    (start : R (startFindings p o) (startFindings p o')) (within : Bind N p.visits) :
    R (rawFindings p o e) (rawFindings p o' e') := by
  have first : CheckState.Related R N ⟨[[]], startFindings p o⟩ ⟨[[]], startFindings p o'⟩ :=
    ⟨rfl, .start, start⟩
  exact Check.closing_related h (Check.statements_relates h {} [] p.statements within _ _ first)

end ProseLang
