import Mathlib.Data.List.Forall2
import ProseLang.Grammar.Parsing
import ProseLang.Proofs.Validation.Counters
import ProseLang.Validation.Result

/-!
# What a check leaves as it was

Whatever part of a program is checked, afterwards the same scopes are open and the same bodies are
counted. The scopes around the innermost one differ in marks of use only, and the innermost one has
new symbols behind those that it had. A throw without a message is reported if it stands in no
handler, unless it is part of the settings of a session or an agent, which are not looked into
(`check_neutral`).

One judgement says this of a check (`Check.Neutral`). It is kept by a check after another and by a
scope around a check, and so it is put together along the tree.
-/

namespace ProseLang

/-! ## Scopes -/

/-- Whether a symbol is the same, but for a mark of use that may be new. -/
def Symbol.Marks (x y : Symbol) : Prop := y = x ∨ y = { x with used := true }

namespace Symbol.Marks

variable {x y z : Symbol}

private theorem refl (x : Symbol) : x.Marks x := .inl rfl

private theorem trans (h : x.Marks y) (h' : y.Marks z) : x.Marks z := by
  rcases h with rfl | rfl
  · exact h'
  · rcases h' with rfl | rfl <;> exact .inr rfl

private theorem name (h : x.Marks y) : y.name = x.name := by rcases h with rfl | rfl <;> rfl

end Symbol.Marks

namespace Scope

/-- Whether a scope is the same, but for marks of use that may be new. -/
def Marks : Scope → Scope → Prop := List.Forall₂ Symbol.Marks

/-- Whether a scope is the same, but for new marks of use and new symbols behind those that it
had. -/
def Grows (s s' : Scope) : Prop :=
  ∃ marked added : Scope, s' = marked ++ added ∧ s.Marks marked
    ∧ (∀ x ∈ added, x.name ∉ s.map Symbol.name) ∧ (added.map Symbol.name).Nodup

variable {s t u : Scope}

private theorem Marks.refl (s : Scope) : s.Marks s := List.forall₂_same.2 fun x _ ↦ .refl x

private theorem Marks.trans (h : s.Marks t) (h' : t.Marks u) : s.Marks u := by
  induction h generalizing u with
  | nil => exact h'
  | cons first _ ih =>
    cases h' with
    | cons first' rest' => exact .cons (first.trans first') (ih rest')

private theorem Marks.names (h : s.Marks t) : t.map Symbol.name = s.map Symbol.name := by
  induction h with
  | nil => rfl
  | cons first _ ih => rw [List.map_cons, List.map_cons, first.name, ih]

/-- What follows two scopes that are joined is two scopes that are joined. -/
theorem Marks.split {a b : Scope} (h : Marks (a ++ b) u) :
    ∃ a' b', u = a' ++ b' ∧ a.Marks a' ∧ b.Marks b' := by
  induction a generalizing u with
  | nil => exact ⟨[], u, rfl, .nil, h⟩
  | cons x a ih =>
    cases h with
    | cons first rest =>
      obtain ⟨a', b', rfl, ha, hb⟩ := ih rest
      exact ⟨_ :: a', b', rfl, .cons first ha, hb⟩

private theorem marks_markUsed (s : Scope) (name : String) : s.Marks (s.markUsed name) := by
  refine List.forall₂_map_right_iff.2 (List.forall₂_same.2 fun x _ ↦ ?_)
  split
  · exact .inr rfl
  · exact .inl rfl

private theorem Marks.grows (h : s.Marks t) : s.Grows t :=
  ⟨t, [], (List.append_nil t).symm, h, fun _ hx ↦ absurd hx List.not_mem_nil, .nil⟩

private theorem Grows.trans (h : s.Grows t) (h' : t.Grows u) : s.Grows u := by
  obtain ⟨marked, added, rfl, marks, new, distinct⟩ := h
  obtain ⟨_, later, rfl, marks', new', distinct'⟩ := h'
  obtain ⟨marked', added', rfl, marks₁, marks₂⟩ := marks'.split
  rw [List.map_append, marks.names] at new'
  refine ⟨marked', added' ++ later, List.append_assoc .., marks.trans marks₁, ?_, ?_⟩
  · intro x hx
    rcases List.mem_append.1 hx with hx | hx
    · have named : x.name ∈ added.map Symbol.name := marks₂.names ▸ List.mem_map_of_mem hx
      obtain ⟨y, hy, same⟩ := List.mem_map.1 named
      exact same ▸ new y hy
    · exact fun old ↦ new' x hx (List.mem_append_left _ old)
  · rw [List.map_append, marks₂.names]
    refine List.nodup_append.2 ⟨distinct, distinct', fun name here other there same ↦ ?_⟩
    obtain ⟨x, hx, rfl⟩ := List.mem_map.1 there
    exact new' x hx (List.mem_append_right _ (same ▸ here))

private theorem grows_append {x : Symbol} (h : s.find? x.name = none) : s.Grows (s ++ [x]) := by
  refine ⟨s, [x], rfl, .refl s, List.forall_mem_singleton.2 fun old ↦
    ?_, List.pairwise_singleton _ _⟩
  obtain ⟨y, hy, same⟩ := List.mem_map.1 old
  exact List.find?_eq_none.1 h y hy (decide_eq_true same)

end Scope

namespace Scopes

/-- Whether the same scopes are open, of which the innermost one may have new symbols. -/
inductive Grow : Scopes → Scopes → Prop
  | intro {inner inner' : Scope} {outer outer' : Scopes} (head : inner.Grows inner')
      (tail : List.Forall₂ Scope.Marks outer outer') : Grow (inner :: outer) (inner' :: outer')

variable {ss ts us : Scopes}

private theorem marks_trans (h : List.Forall₂ Scope.Marks ss ts)
    (h' : List.Forall₂ Scope.Marks ts us) : List.Forall₂ Scope.Marks ss us := by
  induction h generalizing us with
  | nil => exact h'
  | cons first _ ih =>
    cases h' with
    | cons first' rest' => exact .cons (first.trans first') (ih rest')

private theorem grow_of_marks (opened : ss ≠ []) (h : List.Forall₂ Scope.Marks ss ts) :
    ss.Grow ts := by
  cases h with
  | nil => exact absurd rfl opened
  | cons first rest => exact .intro first.grows rest

namespace Grow

private theorem refl (opened : ss ≠ []) : ss.Grow ss :=
  grow_of_marks opened (List.forall₂_same.2 fun s _ ↦ .refl s)

private theorem trans (h : ss.Grow ts) (h' : ts.Grow us) : ss.Grow us := by
  cases h with
  | intro head tail =>
    cases h' with
    | intro head' tail' => exact .intro (head.trans head') (marks_trans tail tail')

private theorem ne_nil (h : ss.Grow ts) : ts ≠ [] := by
  cases h
  exact List.cons_ne_nil _ _

private theorem length (h : ss.Grow ts) : ts.length = ss.length := by
  cases h with
  | intro _ tail => rw [List.length_cons, List.length_cons, tail.length_eq]

private theorem inner (h : ss.Grow ts) : Scope.Grows (ss.headD []) (ts.headD []) := by
  cases h
  assumption

private theorem outer (h : ss.Grow ts) : List.Forall₂ Scope.Marks ss.tail ts.tail := by
  cases h
  assumption

end Grow

private theorem marks_markUsed (name : String) :
    (ss : Scopes) → List.Forall₂ Scope.Marks ss (ss.markUsed name)
  | [] => .nil
  | s :: ss => by
    rw [markUsed]
    split
    · exact .cons (s.marks_markUsed name) (List.forall₂_same.2 fun s _ ↦ .refl s)
    · exact .cons (.refl s) (marks_markUsed name ss)

private theorem grow_declare (opened : ss ≠ []) (x : Symbol) : ss.Grow (ss.declare x).1 := by
  cases ss with
  | nil => exact absurd rfl opened
  | cons s outer =>
    rw [declare]
    split
    · exact .refl opened
    · next free =>
      exact .intro (Scope.grows_append free) (List.forall₂_same.2 fun s _ ↦ .refl s)

end Scopes

/-! ## Throws -/

/-- A throw without a message, and what is around it. -/
structure BareThrow where
  span : Span
  /-- Whether it stands in a handler. -/
  handled : Bool := false
  /-- Whether it is part of the settings of a session or an agent. -/
  inSettings : Bool := false
deriving DecidableEq, Repr

namespace BareThrow

/-- The throw with a handler around it. -/
def handle (t : BareThrow) : BareThrow := { t with handled := true }

/-- The throw as a part of settings. -/
def set (t : BareThrow) : BareThrow := { t with inSettings := true }

end BareThrow

mutual

/-- The throws without a message in a statement. -/
def Statement.bareThrows : Statement → List BareThrow
  | .comment _ | .importSkill _ => []
  | .agent ⟨_, _, _, _, permissions, properties, _, _⟩ =>
    (permissionThrows permissions ++ propertyThrows properties).map .set
  | .block ⟨_, _, body, _⟩ => bodyThrows body
  | .binding _ ⟨_, value, _⟩ => value.bareThrows
  | .assignment ⟨_, value, _⟩ => value.bareThrows
  | .action a => a.bareThrows
  | .parallel ⟨_, _, _, _, body, _⟩ => bodyThrows body
  | .repeated ⟨_, _, body, _⟩ => bodyThrows body
  | .forEach ⟨_, _, collection, _, _, _, body, _⟩ => collection.bareThrows ++ bodyThrows body
  | .loop ⟨_, _, _, _, body, _⟩ => bodyThrows body
  | .attempt ⟨body, handler, cleanup, _⟩ =>
    bodyThrows body ++ (handlerThrows handler ++ clauseThrows cleanup)
  | .throw ⟨some _, _⟩ => []
  | .throw ⟨none, span⟩ => [{ span }]
  | .choice ⟨_, options, _⟩ => optionThrows options
  | .conditional ⟨branches, otherwise, _⟩ => branchThrows branches ++ clauseThrows otherwise

/-- The throws without a message in a body. -/
def bodyThrows : List Statement → List BareThrow
  | [] => []
  | s :: body => s.bareThrows ++ bodyThrows body

/-- The throws without a message in a handler. -/
def handlerThrows : Option Handler → List BareThrow
  | none => []
  | some ⟨_, body, _⟩ => (bodyThrows body).map .handle

/-- The throws without a message in a clause that has a body only. -/
def clauseThrows : Option Body → List BareThrow
  | none => []
  | some ⟨body, _⟩ => bodyThrows body

/-- The throws without a message in the options of a choice. -/
def optionThrows : List ChoiceOption → List BareThrow
  | [] => []
  | ⟨_, body, _⟩ :: options => bodyThrows body ++ optionThrows options

/-- The throws without a message in conditional branches. -/
def branchThrows : List Branch → List BareThrow
  | [] => []
  | ⟨_, _, body, _⟩ :: branches => bodyThrows body ++ branchThrows branches

/-- The throws without a message in an action. -/
def Action.bareThrows : Action → List BareThrow
  | .session ⟨_, _, _, _, _, _, _, _, properties, _, _, _⟩ => (propertyThrows properties).map .set
  | .pipe ⟨input, operations, _⟩ => input.bareThrows ++ operationThrows operations
  | .doBlock ⟨body, _⟩ => bodyThrows body
  | .invoke ⟨_, args, _⟩ => valueThrows args

/-- The throws without a message in pipe operations. -/
def operationThrows : List Operation → List BareThrow
  | [] => []
  | ⟨_, _, _, body, _⟩ :: operations => bodyThrows body ++ operationThrows operations

/-- The throws without a message in a value. -/
def Expr.bareThrows : Expr → List BareThrow
  | .action a => a.bareThrows
  | .string _ | .number _ | .ident _ | .discretion _ => []
  | .array ⟨items, _⟩ => valueThrows items
  | .object ⟨entries, _⟩ => entryThrows entries

/-- The throws without a message in values. -/
def valueThrows : List Expr → List BareThrow
  | [] => []
  | e :: es => e.bareThrows ++ valueThrows es

/-- The throws without a message in the entries of an object. -/
def entryThrows : List Entry → List BareThrow
  | [] => []
  | ⟨_, some value⟩ :: entries => value.bareThrows ++ entryThrows entries
  | ⟨_, none⟩ :: entries => entryThrows entries

/-- The throws without a message in properties. -/
def propertyThrows : List Property → List BareThrow
  | [] => []
  | ⟨_, value, _⟩ :: properties => value.bareThrows ++ propertyThrows properties

/-- The throws without a message in the permissions of an agent. -/
def permissionThrows : Option (List Property) → List BareThrow
  | none => []
  | some properties => propertyThrows properties

/-- The throws without a message in the value of a property. -/
def PropertyValue.bareThrows : PropertyValue → List BareThrow
  | .expr e => e.bareThrows
  | .context _ => []
  | .nested properties => propertyThrows properties

end

/-- The throws without a message in a program. -/
def Program.bareThrows (p : Program) : List BareThrow := bodyThrows p.statements

/-- Whether an issue is about a throw without a message. -/
def Issue.isThrow : Issue → Bool
  | throwOutsideCatch => true
  | _ => false

/-- The places at which findings report a throw without a message. -/
def throwSpans (fs : List Finding) : List Span := (fs.filter (·.issue.isThrow)).map Finding.span

private theorem throwSpans_append (fs gs : List Finding) :
    throwSpans (fs ++ gs) = throwSpans fs ++ throwSpans gs := by
  rw [throwSpans, List.filter_append, List.map_append]
  rfl

private theorem throwSpans_eq_nil {fs : List Finding} (h : ∀ f ∈ fs, f.issue.isThrow = false) :
    throwSpans fs = [] := by
  rw [throwSpans, List.filter_eq_nil_iff.2 fun f hf ↦ by simp [h f hf]]
  rfl

private theorem throwSpans_unused (k : Knowledge) (s : Scope) :
    throwSpans (Check.unusedFindings k s) = [] := by
  apply throwSpans_eq_nil
  intro f member
  rw [Check.unusedFindings] at member
  split at member
  · obtain ⟨x, -, rfl⟩ := List.mem_map.1 member
    rfl
  · cases member

/-- The places of the throws that are reported among those of a part at a place. -/
def Place.reports (p : Place) (ts : List BareThrow) : List Span :=
  (ts.filter fun t ↦ !p.inHandler && !t.handled && !t.inSettings).map BareThrow.span

namespace Place

variable (p : Place)

private theorem reports_append (ts us : List BareThrow) :
    p.reports (ts ++ us) = p.reports ts ++ p.reports us := by
  rw [reports, List.filter_append, List.map_append]
  rfl

private theorem reports_set (ts : List BareThrow) : p.reports (ts.map .set) = [] := by
  simp [reports, BareThrow.set]

private theorem reports_past (s : Statement) (ts : List BareThrow) :
    (p.past s).reports ts = p.reports ts := by
  cases s <;> rfl

/-- In a handler nothing is reported. -/
theorem reports_handle (ts : List BareThrow) :
    p.reports (ts.map .handle) = p.handling.reports ts := by
  simp [reports, BareThrow.handle, handling]

end Place

namespace Check

/-- Whether a check leaves the open scopes as they are but for marks of use and new symbols of the
innermost one, and reports throws without a message at the given places. -/
def Neutral (c : Check Unit) (spans : List Span) : Prop :=
  ∀ σ : CheckState, σ.scopes ≠ [] → σ.scopes.Grow (c.run σ).2.scopes
    ∧ throwSpans (c.run σ).2.findings = throwSpans σ.findings ++ spans

namespace Neutral

variable {c d : Check Unit} {spans more : List Span}

private theorem pure : Neutral (pure ()) [] :=
  fun _ opened ↦ ⟨.refl opened, (List.append_nil _).symm⟩

/-- One check after another. -/
theorem seq (hc : Neutral c spans) (hd : Neutral d more) : Neutral (do c; d) (spans ++ more) := by
  intro σ opened
  obtain ⟨grow, found⟩ := hc σ opened
  obtain ⟨grow', found'⟩ := hd (c.run σ).2 grow.ne_nil
  refine ⟨grow.trans grow', ?_⟩
  rw [← List.append_assoc, ← found, ← found']
  rfl

/-- A check that reports no throws before another. -/
theorem quiet (hc : Neutral c []) (hd : Neutral d spans) : Neutral (do c; d) spans := hc.seq hd

/-- A check before another that reports no throws. -/
theorem done (hc : Neutral c spans) (hd : Neutral d []) : Neutral (do c; d) spans := by
  have both := hc.seq hd
  rwa [List.append_nil] at both

private theorem forM {α : Type} {f : α → Check Unit} (h : ∀ x, Neutral (f x) []) (xs : List α) :
    Neutral (xs.forM f) [] := by
  induction xs with
  | nil => exact pure
  | cons x xs ih => exact (h x).quiet ih

private theorem optionForM {α : Type} {f : α → Check Unit}
    (h : ∀ x, Neutral (f x) []) (x : Option α) : Neutral (x.forM f) [] := by
  cases x with
  | none => exact pure
  | some x => exact h x

private theorem note {issue : Issue} {span : Span} (h : issue.isThrow = false) :
    Neutral (Check.note issue span) [] := by
  refine fun σ opened ↦ ⟨.refl opened, ?_⟩
  change throwSpans (σ.findings ++ [⟨issue, span⟩]) = _
  rw [throwSpans_append, throwSpans_eq_nil (List.forall_mem_singleton.2 h)]

private theorem noteIf {condition : Bool} {issue : Issue} {span : Span}
    (h : issue.isThrow = false) : Neutral (Check.noteIf condition issue span) [] := by
  cases condition with
  | true => exact note h
  | false => exact pure

private theorem markUsed (name : String) : Neutral (Check.markUsed name) [] := fun σ opened ↦
  ⟨Scopes.grow_of_marks opened (Scopes.marks_markUsed name σ.scopes), (List.append_nil _).symm⟩

private theorem useName (how : NameUse) (name : Ident) : Neutral (Check.useName how name) [] := by
  have report (bound : Bool) : Neutral (if bound then Check.markUsed name.val
      else Check.note (.undefinedVariable name.val how) name.span) [] := by
    cases bound with
    | true => exact markUsed name.val
    | false => exact note rfl
  exact fun σ opened ↦ report (σ.scopes.binds name.val) σ opened

private theorem declare (name : Ident) (kind : SymbolKind) (written : Bool) :
    Neutral (Check.declare name kind written) [] := by
  intro σ opened
  have grow := Scopes.grow_declare opened ⟨name.val, kind, name.span, false⟩
  rw [Check.declare]
  simp only [StateT.run_bind, StateT.run_get, StateT.run_set, pure_bind]
  cases met : σ.scopes.declare { name := name.val, kind, span := name.span } with
  | mk scopes declared =>
    rw [met] at grow
    dsimp only at grow ⊢
    have after {c : Check Unit} (h : Neutral c []) := h { σ with scopes } grow.ne_nil
    split
    · exact (after pure).imp_left grow.trans
    · exact (after (note (by split <;> rfl))).imp_left grow.trans
    · exact (after (noteIf rfl)).imp_left grow.trans

/-- What is closed was opened: a scope leaves the ones around it with marks of use only. -/
theorem inScope (k : Knowledge) (ls : List Local) (h : Neutral c spans) :
    Neutral (Check.inScope k ls c) spans := by
  intro σ opened
  have declared : Neutral (declareLocals ls) [] := by
    rw [declareLocals]
    exact forM (fun l ↦ declare l.name l.kind l.written) ls
  have body : Neutral (do declareLocals ls; c) spans := declared.quiet h
  obtain ⟨grow, found⟩ := body (openScope.run σ).2 (List.cons_ne_nil _ _)
  change σ.scopes.Grow ((do declareLocals ls; c : Check Unit).run (openScope.run σ).2).2.scopes.tail
    ∧ throwSpans (_ ++ unusedFindings k _) = _
  rw [throwSpans_append, throwSpans_unused, List.append_nil]
  exact ⟨Scopes.grow_of_marks opened grow.outer, found⟩

/-! ### Leaves -/

private theorem string (s : StringLit) : Neutral (Check.string s) [] :=
  forM (useName .interpolation) _

private theorem context (x : Context) : Neutral (Check.context x) [] := forM (useName .context) _

private theorem model (k : Knowledge) (m : Ident) : Neutral (Check.model k m) [] := noteIf rfl

private theorem skills (k : Knowledge) (names : List Ident) : Neutral (Check.skills k names) [] :=
  forM (fun _ ↦ noteIf rfl) names

private theorem unknownProperties (owner : PropertyOwner) (properties : List Property) :
    Neutral (Check.unknownProperties owner properties) [] :=
  forM (fun _ ↦ note rfl) properties

private theorem permission (p : Property) : Neutral (Check.permission p) [] := by
  rw [Check.permission]
  split
  · exact noteIf rfl
  · exact note rfl

private theorem agent (k : Knowledge) (a : Agent) : Neutral (Check.agent k a) [] := by
  apply Neutral.quiet (noteIf rfl)
  apply Neutral.quiet (optionForM (model k) _)
  apply Neutral.quiet (skills k a.skills)
  apply Neutral.quiet (forM permission _)
  exact unknownProperties .agent a.properties

private theorem importSkill (k : Knowledge) (p : Place) (i : Import) :
    Neutral (Check.importSkill k p i) [] :=
  quiet (noteIf rfl) (noteIf rfl)

private theorem session (k : Knowledge) (s : Session) : Neutral (Check.session k s) [] := by
  apply Neutral.quiet (noteIf rfl)
  apply Neutral.quiet (optionForM (fun _ ↦ noteIf rfl) _)
  apply Neutral.quiet (optionForM (model k) _)
  apply Neutral.quiet (skills k _)
  apply Neutral.quiet (optionForM (fun _ ↦ noteIf rfl) _)
  apply Neutral.quiet (optionForM (fun _ ↦ noteIf rfl) _)
  apply Neutral.quiet (unknownProperties .session s.properties)
  exact (optionForM string _).quiet (context s.context)

private theorem parallel (p : Parallel) : Neutral (Check.parallel p) [] := by
  have modifiers : Neutral (Check.parallelModifiers p) [] := by
    apply Neutral.quiet (optionForM (fun _ ↦ noteIf rfl) _)
    apply Neutral.quiet (optionForM (fun _ ↦ noteIf rfl) _)
    apply Neutral.quiet (optionForM (fun _ ↦ quiet (noteIf rfl) (noteIf rfl)) _)
    exact optionForM (fun _ ↦ noteIf rfl) _
  exact modifiers.quiet (noteIf rfl)

private theorem invocation (k : Knowledge) (i : Invocation) :
    Neutral (Check.invocation k i) [] := by
  rw [Check.invocation]
  split
  · exact note rfl
  · exact noteIf rfl

private theorem assignment (p : Place) (name : Ident) (span : Span) :
    Neutral (Check.assignment p name span) [] := by
  intro σ opened
  rw [Check.assignment]
  simp only [StateT.run_bind, StateT.run_get, pure_bind]
  split
  · split
    · exact declare name .branch true σ opened
    · exact note rfl σ opened
  · split
    · exact note rfl σ opened
    · exact note rfl σ opened
    · exact pure σ opened

/-- A throw without a message is reported unless a failure is being handled. -/
theorem bareThrow (p : Place) (span : Span) :
    Neutral (Check.noteIf (!p.inHandler) .throwOutsideCatch span) (p.reports [{ span }]) := by
  cases handled : p.inHandler with
  | true =>
    have silent : p.reports [{ span }] = [] := by simp [Place.reports, handled]
    rw [silent]
    exact pure
  | false =>
    have told : p.reports [{ span }] = [span] := by simp [Place.reports, handled]
    rw [told]
    exact fun σ opened ↦ ⟨.refl opened, throwSpans_append σ.findings [⟨.throwOutsideCatch, span⟩]⟩

end Neutral

/-! ## The pass -/

variable (k : Knowledge)

mutual

/-- The check of a statement. -/
theorem statement_neutral (p : Place) :
    (s : Statement) → Neutral (statement k p s) (p.reports s.bareThrows)
  | .comment _ => .pure
  | .importSkill i => .importSkill k p i
  | .agent a => by
    rw [statement, Statement.bareThrows, Place.reports_set]
    exact .agent k a
  | .block ⟨_, _, body, _⟩ => by
    rw [statement, Statement.bareThrows]
    exact .inScope k _ (statements_neutral p.inBody [] body)
  | .binding kind ⟨name, value, _⟩ => by
    rw [statement, Statement.bareThrows]
    exact (expr_neutral p value).done (.declare name (bindingSymbol kind) true)
  | .assignment ⟨name, value, span⟩ => by
    rw [statement, Statement.bareThrows]
    exact (expr_neutral p value).done (.assignment p name span)
  | .action a => by
    have checked := action_neutral p a
    rw [Statement.bareThrows]
    cases a with
    | session s => exact checked.done (.optionForM (fun name ↦ .declare name .session true) s.name)
    | pipe | doBlock | invoke => exact checked.done .pure
  | .parallel ⟨_, _, _, _, body, _⟩ => by
    rw [statement, Statement.bareThrows]
    exact (Neutral.parallel _).quiet (statements_neutral p.branches [] body)
  | .repeated ⟨_, _, body, _⟩ => by
    rw [statement, Statement.bareThrows]
    exact .quiet (.noteIf rfl) (.inScope k _ (statements_neutral p.inBody [] body))
  | .forEach ⟨_, _, collection, _, _, _, body, _⟩ => by
    rw [statement, Statement.bareThrows, Place.reports_append]
    exact (expr_neutral p collection).seq (.inScope k _ (statements_neutral p.inBody [] body))
  | .loop ⟨_, _, _, _, body, _⟩ => by
    rw [statement, Statement.bareThrows]
    exact .quiet (.noteIf rfl) (.inScope k _ (statements_neutral p.inBody [] body))
  | .attempt ⟨body, handler, cleanup, _⟩ => by
    rw [statement, Statement.bareThrows, Place.reports_append, Place.reports_append]
    apply Neutral.seq (.inScope k [] (statements_neutral p.inBody [] body))
    exact (handlerBody_neutral p handler).seq (clauseBody_neutral p cleanup)
  | .throw ⟨some message, _⟩ => .string message
  | .throw ⟨none, span⟩ => .bareThrow p span
  | .choice ⟨_, options, _⟩ => by
    rw [statement, Statement.bareThrows]
    exact optionBodies_neutral p options
  | .conditional ⟨branches, otherwise, _⟩ => by
    rw [statement, Statement.bareThrows, Place.reports_append]
    exact (branchBodies_neutral p branches).seq (clauseBody_neutral p otherwise)

private theorem statements_neutral (p : Place) (before : List String) :
    (body : List Statement) → Neutral (statements k p before body) (p.reports (bodyThrows body))
  | [] => by
    rw [statements]
    split
    · exact .forM .markUsed before
    · exact .pure
  | s :: body => by
    have rest (before : List String) := statements_neutral (p.past s) before body
    rw [Place.reports_past] at rest
    have here (before : List String) := (statement_neutral p s).seq (rest before)
    rw [statements, bodyThrows, Place.reports_append]
    split
    · exact .quiet (.forM .markUsed before) (here _)
    · exact here _

private theorem handlerBody_neutral (p : Place) :
    (handler : Option Handler) →
      Neutral (handlerBody k p handler) (p.reports (handlerThrows handler))
  | none => .pure
  | some ⟨_, body, _⟩ => by
    rw [handlerBody, handlerThrows, Place.reports_handle]
    exact .inScope k _ (statements_neutral p.handling [] body)

private theorem clauseBody_neutral (p : Place) :
    (clause : Option Body) → Neutral (clauseBody k p clause) (p.reports (clauseThrows clause))
  | none => .pure
  | some ⟨body, _⟩ => by
    rw [clauseBody, clauseThrows]
    exact .inScope k [] (statements_neutral p.inBody [] body)

private theorem optionBodies_neutral (p : Place) :
    (options : List ChoiceOption) →
      Neutral (optionBodies k p options) (p.reports (optionThrows options))
  | [] => .pure
  | ⟨label, body, _⟩ :: options => by
    rw [optionBodies, optionThrows, Place.reports_append]
    apply Neutral.quiet (.string label)
    apply Neutral.seq (.inScope k [] (statements_neutral p.inBody [] body))
    exact optionBodies_neutral p options

private theorem branchBodies_neutral (p : Place) :
    (branches : List Branch) →
      Neutral (branchBodies k p branches) (p.reports (branchThrows branches))
  | [] => .pure
  | ⟨_, _, body, _⟩ :: branches => by
    rw [branchBodies, branchThrows, Place.reports_append]
    apply Neutral.seq (.inScope k [] (statements_neutral p.inBody [] body))
    exact branchBodies_neutral p branches

private theorem action_neutral (p : Place) :
    (a : Action) → Neutral (action k p a) (p.reports a.bareThrows)
  | .session s => by
    rw [action, Action.bareThrows, Place.reports_set]
    exact .session k s
  | .pipe ⟨input, operations, _⟩ => by
    rw [action, Action.bareThrows, Place.reports_append]
    exact (expr_neutral p input).seq (operationBodies_neutral p operations)
  | .doBlock ⟨body, _⟩ => by
    rw [action, Action.bareThrows]
    exact .inScope k [] (statements_neutral p.inBody [] body)
  | .invoke ⟨name, args, span⟩ => by
    rw [action, Action.bareThrows]
    exact (exprs_neutral p args).done (.invocation k ⟨name, args, span⟩)

private theorem operationBodies_neutral (p : Place) :
    (operations : List Operation) →
      Neutral (operationBodies k p operations) (p.reports (operationThrows operations))
  | [] => .pure
  | ⟨_, _, _, body, _⟩ :: operations => by
    rw [operationBodies, operationThrows, Place.reports_append]
    apply Neutral.seq (.inScope k _ (statements_neutral p.inBody [] body))
    exact operationBodies_neutral p operations

private theorem expr_neutral (p : Place) :
    (e : Expr) → Neutral (expr k p e) (p.reports e.bareThrows)
  | .action a => by
    rw [expr, Expr.bareThrows]
    exact action_neutral p a
  | .string s => .string s
  | .number _ | .discretion _ => .pure
  | .ident name => .useName .value name
  | .array ⟨items, _⟩ => by
    rw [expr, Expr.bareThrows]
    exact exprs_neutral p items
  | .object ⟨es, _⟩ => by
    rw [expr, Expr.bareThrows]
    exact entries_neutral p es

private theorem exprs_neutral (p : Place) :
    (es : List Expr) → Neutral (exprs k p es) (p.reports (valueThrows es))
  | [] => .pure
  | e :: es => by
    rw [exprs, valueThrows, Place.reports_append]
    exact (expr_neutral p e).seq (exprs_neutral p es)

private theorem entries_neutral (p : Place) :
    (es : List Entry) → Neutral (entries k p es) (p.reports (entryThrows es))
  | [] => .pure
  | ⟨_, some value⟩ :: es => by
    rw [entries, entryThrows, Place.reports_append]
    exact (expr_neutral p value).seq (entries_neutral p es)
  | ⟨key, none⟩ :: es => by
    rw [entries, entryThrows]
    exact Neutral.quiet (.useName .value key) (entries_neutral p es)

end

end Check

/-- What is checked in one go. -/
inductive Checked
  | statement (s : Statement)
  | value (e : Expr)
  | body (body : List Statement)

namespace Checked

/-- The check at a place. -/
def checkAt (k : Knowledge) (p : Place) : Checked → Check Unit
  | statement s => Check.statement k p s
  | value e => Check.expr k p e
  | body ss => Check.statements k p [] ss

/-- The check with counters. -/
def check (k : Knowledge) : Checked → Counting Unit
  | statement s => Counting.visit k s
  | value e => Counting.expr k e
  | body ss => Counting.walks k [] ss

/-- The throws without a message. -/
def bareThrows : Checked → List BareThrow
  | statement s => s.bareThrows
  | value e => e.bareThrows
  | body ss => bodyThrows ss

/-- Whether a state and counters are left by a check as they were, but for what the check is to
find. -/
structure Leaves (x : Checked) (σ τ : CheckState) (n m : Counters) : Prop where
  /-- As many scopes are open. -/
  scopes : τ.scopes.length = σ.scopes.length
  depth : m.depth = n.depth
  catchDepth : m.catchDepth = n.catchDepth
  inParallel : m.inParallel = n.inParallel
  /-- Around the innermost scope there are new marks of use at most. -/
  outer : List.Forall₂ Scope.Marks σ.scopes.tail τ.scopes.tail
  inner : Scope.Grows (σ.scopes.headD []) (τ.scopes.headD [])
  /-- Within a handler no throw is reported, and outside of handlers those that stand in none of the
  part. -/
  throws : throwSpans τ.findings = throwSpans σ.findings
    ++ (x.bareThrows.filter fun t ↦ n.catchDepth = 0 && !t.handled && !t.inSettings).map
      BareThrow.span

variable (k : Knowledge) (x : Checked)

private theorem check_run (σ : CheckState) (n : Counters) :
    ∃ m, n.Kept m ∧ (x.check k).run (σ, n) = ((), ((x.checkAt k n.place).run σ).2, m) := by
  cases x with
  | statement s =>
    obtain ⟨m, kept, -, ran⟩ := Counting.visit_run k s σ n
    exact ⟨m, kept, ran⟩
  | value e => exact Counting.expr_tells k e σ n
  | body ss => exact Counting.walks_tell k [] ss σ n

private theorem checkAt_neutral (p : Place) : (x.checkAt k p).Neutral (p.reports x.bareThrows) := by
  cases x with
  | statement s => exact Check.statement_neutral k p s
  | value e => exact Check.expr_neutral k p e
  | body ss => exact Check.statements_neutral k p [] ss

end Checked

private theorem Counters.reports_place (n : Counters) (ts : List BareThrow) :
    n.place.reports ts
      = (ts.filter fun t ↦ n.catchDepth = 0 && !t.handled && !t.inSettings).map BareThrow.span := by
  have none : (!decide (0 < n.catchDepth)) = decide (n.catchDepth = 0) := by
    cases n.catchDepth <;> rfl
  simp only [Place.reports, place, none]

/-- A program is reported for the throws without a message that stand neither in a handler nor in
the settings of a session or an agent. -/
theorem throwSpans_rawFindings (p : Program) (options : ValidatorOptions) (e : Enumeration) :
    throwSpans (rawFindings p options e)
      = (p.bareThrows.filter fun t ↦ !t.handled && !t.inSettings).map BareThrow.span := by
  let k : Knowledge := ⟨options, .ofProgram p, e⟩
  have definitions : throwSpans k.definitions.findings = [] := by
    apply throwSpans_eq_nil
    intro f member
    simp only [Definitions.findings, List.mem_append, List.mem_map] at member
    rcases member with (⟨_, -, rfl⟩ | ⟨_, -, rfl⟩) | ⟨_, -, rfl⟩ <;> rfl
  have comments : throwSpans
      (if options.warnOnTodoComments then commentFindings p.comments else []) = [] := by
    apply throwSpans_eq_nil
    intro f member
    split at member
    · simp only [commentFindings, List.mem_filterMap, Option.map_eq_some_iff] at member
      obtain ⟨_, -, _, -, rfl⟩ := member
      rfl
    · cases member
  obtain ⟨-, found⟩ := Check.statements_neutral k {} [] p.statements
    ⟨[[]], _⟩ (List.cons_ne_nil [] [])
  change throwSpans (_ ++ Check.unusedFindings k _) = _
  rw [throwSpans_append, throwSpans_unused, List.append_nil]
  refine found.trans ?_
  rw [throwSpans_append, definitions, comments]
  rfl

/-- Throws without a message are errors. -/
theorem throwSpans_errors_perm (p : Program) (options : ValidatorOptions) (e : Enumeration) :
    (throwSpans (validate p options e).errors).Perm (throwSpans (rawFindings p options e)) := by
  have severe (f : Finding) : (f.issue.isThrow && f.isError) = f.issue.isThrow := by
    rcases f with ⟨issue, span⟩
    cases issue <;> rfl
  change (((List.mergeSort _ _).filter Finding.isError).filter _ |>.map _).Perm _
  rw [List.filter_filter]
  simp only [severe]
  exact ((List.mergeSort_perm _ _).filter _).map _

/-- A check leaves the open scopes and the counters as they were, but for marks of use and for new
symbols of the innermost scope. The throws without a message that are reported are those that stand
neither in a handler, within the part or around it, nor in the settings of a session or an agent. -/
theorem check_neutral :
    (∀ (k : Knowledge) (x : Checked) (inner : Scope) (outer : Scopes) (fs : List Finding)
        (n : Counters), ∃ τ m,
      (x.check k).run (⟨inner :: outer, fs⟩, n) = ((), τ, m)
        ∧ ((x.checkAt k n.place).run ⟨inner :: outer, fs⟩).2 = τ
        ∧ x.Leaves ⟨inner :: outer, fs⟩ τ n m)
      ∧ ∀ (p : Program) (options : ValidatorOptions) (e : Enumeration),
        (throwSpans (validate p options e).errors).Perm
          ((p.bareThrows.filter fun t ↦ !t.handled && !t.inSettings).map BareThrow.span) := by
  constructor
  · intro k x inner outer fs n
    obtain ⟨m, kept, ran⟩ := x.check_run k ⟨inner :: outer, fs⟩ n
    obtain ⟨grow, found⟩ := x.checkAt_neutral k n.place ⟨inner :: outer, fs⟩ (List.cons_ne_nil _ _)
    refine ⟨_, m, ran, rfl, grow.length, kept.depth, kept.catchDepth, kept.inParallel, grow.outer,
      grow.inner, ?_⟩
    rw [found, n.reports_place]
  · intro p options e
    rw [← throwSpans_rawFindings p options e]
    exact throwSpans_errors_perm p options e

/-- Settings are not looked into: a throw in them is not reported, though it stands in no
handler. -/
theorem throw_in_settings_unreported :
    let source := "session \"x\":\n  note: do:\n    throw\n"
    let p := (parse source).program
    (parse source).hasErrors = false
      ∧ (p.bareThrows.filter (!·.handled)).map (·.span.start.offset) = [29]
      ∧ throwSpans (validate p {}).errors = [] := by
  decide +kernel

end ProseLang
