import ProseLang.Proofs.Program.Spans
import ProseLang.Proofs.Program.Visits
import ProseLang.Validation.Result

/-!
# Places of findings

A finding is about places of the program: its own place and the others that it involves are recorded
in the program (`validate_spans`). What a check carries along stands at such places (`Check.Keeps`),
since every declaration and every finding takes its place from the part that it is about.
-/

namespace ProseLang

/-- The places that a finding is about: its own and the others that it involves. -/
def Finding.spans (f : Finding) : List Span := f.span :: f.issue.related.map Prod.fst

/-! ## Parts -/

/-- Whether every place that a part records has a property. -/
def Visit.Stands (P : Span → Prop) (v : Visit) : Prop := ∀ s ∈ v.spans, P s

section

variable {P : Span → Prop}

namespace Visit.Stands

variable {v : Visit}

private theorem own (h : v.Stands P) {s : Span} (hs : s ∈ v.extents) : P s :=
  h s (List.mem_append_left _ hs)

private theorem leaf (h : v.Stands P) (l : Leaf) (hl : l ∈ v.leaves) : P l.span := by
  have first : l.span ∈ l.spans := by cases l <;> exact List.mem_cons_self
  exact h _ (List.mem_append_right _ (List.mem_flatMap.2 ⟨l, hl, first⟩))

private theorem statement {s : Statement} (h : (Visit.statement s).Stands P) : P s.span :=
  h.own List.mem_cons_self

private theorem action {a : Action} (h : (Visit.action a).Stands P) :
    P a.span := h.own List.mem_cons_self

/-- The name that a header binds. -/
theorem binding (h : v.Stands P) (index : Option AsBinding) (hv : bindingLeaves index ⊆ v.leaves) :
    ∀ b ∈ index, P b.name.span := by
  rintro b rfl
  exact h.leaf (.name b.name) (hv (by simp [bindingLeaves]))

/-- The names in a string. -/
theorem names {s : StringLit} (h : (Visit.string s).Stands P) :
    ∀ x ∈ s.interpolations, P x.span := by
  intro x hx
  apply h
  simp only [Visit.spans, extents, leaves, Leaf.spans, List.flatMap_singleton, List.nil_append]
  exact List.mem_cons_of_mem _ (List.mem_map_of_mem hx)

end Visit.Stands

/-- Every property of a list is a part of what the list holds. -/
theorem mem_propertyVisits {p : Property} {ps : List Property} (h : p ∈ ps) :
    Visit.property p ∈ propertyVisits everywhere ps := by
  induction ps with
  | nil => cases h
  | cons q ps ih =>
    rw [propertyVisits]
    rcases List.mem_cons.1 h with rfl | h
    · exact List.mem_append_left _ List.mem_cons_self
    · exact List.mem_append_right _ (ih h)

/-! ## What a check carries along -/

/-- Whether symbols are declared at places with a property. -/
def Scopes.Stand (P : Span → Prop) (ss : Scopes) : Prop := ∀ scope ∈ ss, ∀ x ∈ scope, P x.span

namespace Scopes

variable {ss : Scopes}

private theorem Stand.markUsed (h : ss.Stand P) (name : String) : (ss.markUsed name).Stand P := by
  induction ss with
  | nil => exact h
  | cons s ss ih =>
    obtain ⟨first, rest⟩ := List.forall_mem_cons.1 h
    rw [Scopes.markUsed]
    split
    · refine List.forall_mem_cons.2 ⟨?_, rest⟩
      rw [Scope.markUsed, List.forall_mem_map]
      intro x hx
      split
      · exact first x hx
      · exact first x hx
    · exact List.forall_mem_cons.2 ⟨first, ih rest⟩

/-- What a name means is declared somewhere. -/
theorem Stand.lookup? (h : ss.Stand P) {name : String} {x : Symbol}
    (hx : ss.lookup? name = some x) : P x.span := by
  obtain ⟨s, hs, found⟩ := List.exists_of_findSome?_eq_some hx
  exact h s hs x (List.mem_of_find?_eq_some found)

/-- The place of a declaration that another one meets. -/
def Declared.met : Declared → Option Span
  | .fresh => none
  | .duplicate first => some first
  | .shadows outer => some outer

/-- A declaration at such a place meets declarations at such places only. -/
theorem Stand.declare (h : ss.Stand P) {x : Symbol} (hx : P x.span) :
    (ss.declare x).1.Stand P ∧ ∀ s ∈ Declared.met (ss.declare x).2, P s := by
  cases ss with
  | nil => exact ⟨by simpa [Scopes.declare, Stand] using hx, by simp [Scopes.declare, Declared.met]⟩
  | cons s outer =>
    rw [Scopes.declare]
    split
    · next first found =>
      refine ⟨h, ?_⟩
      rintro _ ⟨⟩
      exact h s List.mem_cons_self first (List.mem_of_find?_eq_some found)
    · obtain ⟨first, rest⟩ := List.forall_mem_cons.1 h
      refine ⟨List.forall_mem_cons.2 ⟨?_, rest⟩, ?_⟩
      · exact List.forall_mem_append.2 ⟨first, List.forall_mem_singleton.2 hx⟩
      · split
        · next hidden found =>
          rintro _ ⟨⟩
          exact Stand.lookup? rest found
        · intro s hs
          cases hs

end Scopes

/-- Whether what is declared and what is found stands at places with a property. -/
structure CheckState.Stands (P : Span → Prop) (σ : CheckState) : Prop where
  scopes : σ.scopes.Stand P
  findings : ∀ f ∈ σ.findings, ∀ s ∈ f.spans, P s

namespace Check

private theorem exists_of_mem_unusedFindings {k : Knowledge} {scope : Scope} {f : Finding}
    (h : f ∈ unusedFindings k scope) : ∃ x ∈ scope, f = ⟨.unusedBinding x.name, x.span⟩ := by
  rw [unusedFindings] at h
  split at h
  · obtain ⟨x, hx, rfl⟩ := List.mem_map.1 h
    exact ⟨x, (k.enumeration.perm scope).mem_iff.1 (List.mem_filter.1 hx).1, rfl⟩
  · cases h

/-- Whether a check keeps to places with a property. -/
def Keeps (P : Span → Prop) (c : Check Unit) : Prop :=
  ∀ σ : CheckState, σ.Stands P → (c.run σ).2.Stands P

namespace Keeps

variable {c d : Check Unit}

private theorem pure : Keeps P (pure ()) := fun _ h ↦ h

private theorem seq (hc : Keeps P c) (hd : Keeps P d) : Keeps P (do c; d) := fun σ h ↦ hd _ (hc σ h)

private theorem forM {α : Type} {f : α → Check Unit} {xs : List α} (h : ∀ x ∈ xs, Keeps P (f x)) :
    Keeps P (xs.forM f) := by
  induction xs with
  | nil => exact pure
  | cons x xs ih =>
    obtain ⟨first, rest⟩ := List.forall_mem_cons.1 h
    exact first.seq (ih rest)

private theorem optionForM {α : Type} {f : α → Check Unit} {x : Option α}
    (h : ∀ y ∈ x, Keeps P (f y)) : Keeps P (x.forM f) := by
  cases x with
  | none => exact pure
  | some x => exact h x rfl

private theorem note {issue : Issue} {span : Span} (h : ∀ s ∈ Finding.spans ⟨issue, span⟩, P s) :
    Keeps P (Check.note issue span) := by
  intro σ stands
  refine ⟨stands.scopes, ?_⟩
  exact List.forall_mem_append.2 ⟨stands.findings, List.forall_mem_singleton.2 h⟩

/-- A finding that involves no other place. -/
theorem noteAt {issue : Issue} {span : Span} (h : P span) (alone : issue.related = []) :
    Keeps P (Check.note issue span) := by
  apply note
  rw [Finding.spans, alone]
  exact List.forall_mem_singleton.2 h

private theorem noteIf {condition : Bool} {issue : Issue} {span : Span} (h : P span)
    (alone : issue.related = []) : Keeps P (Check.noteIf condition issue span) := by
  cases condition with
  | true => exact noteAt h alone
  | false => exact pure

private theorem markUsed (name : String) : Keeps P (Check.markUsed name) :=
  fun _ h ↦ ⟨h.scopes.markUsed name, h.findings⟩

private theorem useName (use : NameUse) {name : Ident} (h : P name.span) :
    Keeps P (Check.useName use name) := by
  have report (bound : Bool) : Keeps P (if bound then Check.markUsed name.val
      else Check.note (.undefinedVariable name.val use) name.span) := by
    cases bound with
    | true => exact markUsed name.val
    | false => exact noteAt h rfl
  exact fun σ stands ↦ report (σ.scopes.binds name.val) σ stands

private theorem declare {name : Ident} (h : P name.span) (kind : SymbolKind) (written : Bool) :
    Keeps P (Check.declare name kind written) := by
  intro σ stands
  obtain ⟨scopes, met⟩ := stands.scopes.declare (x := ⟨name.val, kind, name.span, false⟩) h
  rw [Check.declare]
  simp only [StateT.run_bind, StateT.run_get, StateT.run_set, pure_bind]
  generalize σ.scopes.declare ⟨name.val, kind, name.span, false⟩ = result at scopes met
  obtain ⟨ss, declared⟩ := result
  have after : CheckState.Stands P { σ with scopes := ss } := ⟨scopes, stands.findings⟩
  cases declared with
  | fresh => exact after
  | duplicate first =>
    have place := met first rfl
    refine note (fun s hs ↦ ?_) _ after
    split at hs <;> simp [Finding.spans, Issue.related] at hs
    · rcases hs with rfl | rfl
      · exact h
      · exact place
    · rcases hs with rfl | rfl
      · exact h
      · exact place
  | shadows outer =>
    have place := met outer rfl
    cases written with
    | false => exact after
    | true =>
      refine note (fun s hs ↦ ?_) _ after
      simp [Finding.spans, Issue.related] at hs
      rcases hs with rfl | rfl
      · exact h
      · exact place

private theorem closeScope (k : Knowledge) : Keeps P (Check.closeScope k) := by
  intro σ stands
  refine ⟨fun scope hs ↦ stands.scopes scope (List.mem_of_mem_tail hs), ?_⟩
  refine List.forall_mem_append.2 ⟨stands.findings, fun f hf ↦ ?_⟩
  obtain ⟨x, hx, rfl⟩ := exists_of_mem_unusedFindings hf
  refine List.forall_mem_singleton.2 ?_
  cases hs : σ.scopes with
  | nil => simp [hs] at hx
  | cons scope outer =>
    rw [hs] at hx
    exact stands.scopes scope (by simp [hs]) x hx

private theorem openScope : Keeps P Check.openScope := fun _ h ↦
  ⟨List.forall_mem_cons.2 ⟨fun _ hx ↦ absurd hx List.not_mem_nil, h.scopes⟩, h.findings⟩

private theorem inScope (k : Knowledge) {ls : List Local} (locals : ∀ l ∈ ls, P l.name.span)
    (body : Keeps P c) : Keeps P (Check.inScope k ls c) := by
  apply openScope.seq
  apply Keeps.seq (forM fun l hl ↦ declare (locals l hl) l.kind l.written)
  exact body.seq (closeScope k)

/-- A scope that starts with no names. -/
theorem inBlock (k : Knowledge) (body : Keeps P c) : Keeps P (Check.inScope k [] c) :=
  inScope k (fun _ hl ↦ absurd hl List.not_mem_nil) body

/-! ### Leaves -/

private theorem string {s : StringLit} (h : (Visit.string s).Stands P) : Keeps P (Check.string s) :=
  forM fun x hx ↦ useName .interpolation (h.names x hx)

private theorem context {x : Context} (h : (Visit.context x).Stands P) :
    Keeps P (Check.context x) :=
  forM fun name hname ↦ useName .context (h.leaf (.name name) (List.mem_map_of_mem hname))

private theorem model (k : Knowledge) {m : Ident} (h : P m.span) : Keeps P (Check.model k m) :=
  noteIf h rfl

private theorem skills (k : Knowledge) {names : List Ident} (h : ∀ x ∈ names, P x.span) :
    Keeps P (Check.skills k names) :=
  forM fun x hx ↦ noteIf (h x hx) rfl

private theorem unknownProperties (owner : PropertyOwner) {ps : List Property}
    (h : ∀ v ∈ propertyVisits everywhere ps, v.Stands P) :
    Keeps P (Check.unknownProperties owner ps) :=
  forM fun p hp ↦ noteAt ((h _ (mem_propertyVisits hp)).leaf (.key p.key) List.mem_cons_self) rfl

private theorem permission {p : Property} (h : (Visit.property p).Stands P) :
    Keeps P (Check.permission p) := by
  rw [Check.permission]
  split
  · exact noteIf (h.own List.mem_cons_self) rfl
  · exact noteAt (h.leaf (.key p.key) List.mem_cons_self) rfl

private theorem agent (k : Knowledge) {a : Agent} (own : (Visit.statement (.agent a)).Stands P)
    (permissions : ∀ v ∈ permissionVisits everywhere a.permissions, v.Stands P)
    (properties : ∀ v ∈ propertyVisits everywhere a.properties, v.Stands P) :
    Keeps P (Check.agent k a) := by
  have granted : ∀ p ∈ a.permissions.getD [], (Visit.property p).Stands P := by
    intro p hp
    cases ha : a.permissions with
    | none => simp [ha] at hp
    | some ps =>
      rw [ha] at hp permissions
      exact permissions _ (mem_propertyVisits hp)
  apply Keeps.seq (noteIf (own.leaf (.name a.name) (by simp)) rfl)
  apply Keeps.seq (optionForM fun m hm ↦ model k (own.leaf (.model m) (by simp_all)))
  apply Keeps.seq (skills k fun x hx ↦ own.leaf (.quoted x) (by simp [hx]))
  apply Keeps.seq (forM fun p hp ↦ permission (granted p hp))
  exact unknownProperties .agent properties

private theorem importSkill (k : Knowledge) (p : Place) {i : Import}
    (own : (Visit.statement (.importSkill i)).Stands P) (skill : (Visit.string i.skill).Stands P) :
    Keeps P (Check.importSkill k p i) :=
  .seq (noteIf own.statement rfl) (noteIf (skill.leaf (.string i.skill) List.mem_cons_self) rfl)

private theorem session (k : Knowledge) {s : Session} (own : (Visit.action (.session s)).Stands P)
    (prompt : ∀ x ∈ s.prompt, (Visit.string x).Stands P)
    (context : (Visit.context s.context).Stands P)
    (properties : ∀ v ∈ propertyVisits everywhere s.properties, v.Stands P) :
    Keeps P (Check.session k s) := by
  apply Keeps.seq (noteIf own.action rfl)
  apply Keeps.seq (optionForM fun a ha ↦ noteIf (own.leaf (.name a) (by simp_all)) rfl)
  apply Keeps.seq (optionForM fun m hm ↦ model k (own.leaf (.model m) (by simp_all)))
  apply Keeps.seq (skills k fun x hx ↦ own.leaf (.quoted x) (by simp [hx]))
  apply Keeps.seq (optionForM fun r hr ↦ noteIf (own.leaf (.count r) (by simp_all)) rfl)
  apply Keeps.seq (optionForM fun b hb ↦ noteIf (own.leaf (.quoted b) (by simp_all)) rfl)
  apply Keeps.seq (unknownProperties .session properties)
  apply Keeps.seq (optionForM fun x hx ↦ string (prompt x hx))
  exact .context context

private theorem parallel {p : Parallel} (own : (Visit.statement (.parallel p)).Stands P) :
    Keeps P (Check.parallel p) := by
  have join : ∀ j ∈ p.join, P j.span := fun j hj ↦ own.leaf (.quoted j) (by simp_all)
  have onFail : ∀ f ∈ p.onFail, P f.span := fun f hf ↦ own.leaf (.quoted f) (by simp_all)
  have count : ∀ n ∈ p.count, P n.span := fun n hn ↦ own.leaf (.count n) (by simp_all)
  refine Keeps.seq ?_ (noteIf own.statement rfl)
  apply Keeps.seq (optionForM fun j hj ↦ noteIf (join j hj) rfl)
  apply Keeps.seq (optionForM fun f hf ↦ noteIf (onFail f hf) rfl)
  apply Keeps.seq (optionForM fun n hn ↦ (noteIf (count n hn) rfl).seq (noteIf (count n hn) rfl))
  exact optionForM fun f hf ↦ noteIf (onFail f hf) rfl

private theorem invocation (k : Knowledge) {i : Invocation}
    (own : (Visit.action (.invoke i)).Stands P) : Keeps P (Check.invocation k i) := by
  rw [Check.invocation]
  split
  · exact noteAt (own.leaf (.name i.name) List.mem_cons_self) rfl
  · exact noteIf own.action rfl

private theorem assignment (p : Place) {name : Ident} {span : Span} (hname : P name.span)
    (hspan : P span) : Keeps P (Check.assignment p name span) := by
  intro σ stands
  rw [Check.assignment]
  simp only [StateT.run_bind, StateT.run_get, pure_bind]
  split
  · split
    · exact declare hname .branch true σ stands
    · exact noteAt hspan rfl σ stands
  · next x found =>
    have declared := stands.scopes.lookup? found
    have both : ∀ s ∈ [span, x.span], P s :=
      List.forall_mem_cons.2 ⟨hspan, List.forall_mem_singleton.2 declared⟩
    split
    · refine note ?_ σ stands
      exact both
    · refine note ?_ σ stands
      exact both
    · exact stands

end Keeps

/-! ## The pass -/

private theorem placed_binding {index : Option AsBinding} (h : ∀ b ∈ index, P b.name.span) :
    ∀ l ∈ (index.map fun b ↦ Local.ofIdent b.name).toList, P l.name.span := by
  cases index with
  | none => simp
  | some b => simpa [Local.ofIdent] using h b rfl

private theorem placed_option {name : Option Ident} (h : ∀ x ∈ name, P x.span) :
    ∀ l ∈ (name.map Local.ofIdent).toList, P l.name.span := by
  cases name with
  | none => simp
  | some x => simpa [Local.ofIdent] using h x rfl

/-- An operation declares its names, and default names at its operator. -/
theorem placed_operation {o : Operation} (h : (Visit.operation o).Stands P) :
    ∀ l ∈ operationLocals o, P l.name.span := by
  have operator : P o.operator.span := h.leaf (.operator o.operator) (by simp)
  have name {x : Option Ident} {default : String} (hx : ∀ y ∈ x, P y.span) :
      P (Local.orDefault x default o.operator.span).name.span := by
    cases x with
    | none => exact operator
    | some y => exact hx y rfl
  have item : ∀ y ∈ o.item, P y.span := fun y hy ↦ h.leaf (.name y) (by simp_all)
  have accumulator : ∀ y ∈ o.accumulator, P y.span := fun y hy ↦ h.leaf (.name y) (by simp_all)
  rw [operationLocals]
  split
  · simpa using ⟨name accumulator, name item⟩
  · simpa using name item

mutual

private theorem statement_keeps (k : Knowledge) (p : Place) :
    (s : Statement) → (Visit.statement s).Stands P →
      (∀ v ∈ s.visits everywhere, v.Stands P) → Keeps P (statement k p s)
  | .comment _, _, _ => .pure
  | .importSkill i, own, within => .importSkill k p own (within _ List.mem_cons_self)
  | .agent a, own, within => by
    simp only [Statement.visits, List.forall_mem_append] at within
    exact .agent k own within.1.2 within.2
  | .block ⟨name, params, body, span⟩, own, within => by
    refine .inScope k ?_ (statements_keep k p.inBody [] body within)
    rw [List.forall_mem_map]
    exact fun x hx ↦ own.leaf (.name x) (by simp [hx])
  | .binding kind ⟨name, value, span⟩, own, within =>
    (expr_keeps k p value within).seq
      (.declare (own.leaf (.name name) List.mem_cons_self) (bindingSymbol kind) true)
  | .assignment ⟨name, value, span⟩, own, within =>
    (expr_keeps k p value within).seq
      (.assignment p (own.leaf (.name name) List.mem_cons_self) own.statement)
  | .action a, _, within => by
    simp only [Statement.visits, forall_opened] at within
    obtain ⟨own, inside⟩ := within
    refine (action_keeps k p a own inside).seq ?_
    cases a with
    | session s =>
      exact .optionForM fun name hname ↦
        .declare (own.leaf (.name name) (by simp_all)) .session true
    | pipe | doBlock | invoke => exact .pure
  | .parallel ⟨join, onFail, count, keys, body, span⟩, own, within =>
    (Keeps.parallel own).seq (statements_keep k p.branches [] body within)
  | .repeated ⟨count, index, body, span⟩, own, within => by
    refine Keeps.seq (.noteIf (own.leaf (.count count) List.mem_cons_self) rfl) ?_
    have bound := own.binding index fun l hl ↦ by simp [hl]
    exact .inScope k (placed_binding bound) (statements_keep k p.inBody [] body within)
  | .forEach ⟨item, index, collection, isParallel, forKeyword, inKeyword, body, span⟩, own,
      within => by
    simp only [Statement.visits, List.forall_mem_append] at within
    refine (expr_keeps k p collection within.1).seq ?_
    refine .inScope k ?_ (statements_keep k p.inBody [] body within.2)
    refine List.forall_mem_cons.2 ⟨own.leaf (.name item) (by simp), placed_option fun x hx ↦ ?_⟩
    exact own.leaf (.name x) (by simp_all)
  | .loop ⟨condition, maxIterations, index, keys, body, span⟩, own, within => by
    simp only [Statement.visits, List.forall_mem_append] at within
    refine Keeps.seq (.noteIf own.statement rfl) ?_
    have bound := own.binding index fun l hl ↦ by simp [hl]
    exact .inScope k (placed_binding bound) (statements_keep k p.inBody [] body within.2)
  | .attempt ⟨body, handler, cleanup, span⟩, own, within => by
    simp only [Statement.visits, List.forall_mem_append] at within
    obtain ⟨⟨inBody, inHandler⟩, inCleanup⟩ := within
    refine Keeps.seq (.inBlock k (statements_keep k p.inBody [] body inBody)) ?_
    have error := own.binding (handler.bind HandlerOf.error) (by simp)
    exact (handler_keeps k p handler error inHandler).seq (clause_keeps k p cleanup inCleanup)
  | .throw ⟨some message, span⟩, _, within => .string (within _ List.mem_cons_self)
  | .throw ⟨none, span⟩, own, _ => .noteIf own.statement rfl
  | .choice ⟨criteria, options, span⟩, _, within =>
    options_keep k p options (List.forall_mem_cons.1 within).2
  | .conditional ⟨branches, otherwise, span⟩, _, within => by
    simp only [Statement.visits, List.forall_mem_append] at within
    exact (branches_keep k p branches within.1).seq (clause_keeps k p otherwise within.2)

private theorem statements_keep (k : Knowledge) (p : Place) (before : List String) :
    (body : List Statement) → (∀ v ∈ bodyVisits everywhere body, v.Stands P) →
      Keeps P (statements k p before body)
  | [], _ => by
    rw [statements]
    split
    · exact .forM fun name _ ↦ .markUsed name
    · exact .pure
  | s :: rest, within => by
    simp only [bodyVisits, List.forall_mem_append, List.forall_mem_cons, forall_opened] at within
    obtain ⟨⟨own, inside⟩, -, others⟩ := within
    have here := (statement_keeps k p s own inside).seq (statements_keep k (p.past s)
      (if s.isExecutable then resultNames s else before) rest others)
    rw [statements]
    split
    · exact Keeps.seq (.forM fun name _ ↦ .markUsed name) here
    · exact here

private theorem handler_keeps (k : Knowledge) (p : Place) :
    (handler : Option Handler) → (∀ b ∈ handler.bind HandlerOf.error, P b.name.span) →
      (∀ v ∈ handlerVisits everywhere handler, v.Stands P) → Keeps P (handlerBody k p handler)
  | none, _, _ => .pure
  | some ⟨_, body, _⟩, own, within =>
    .inScope k (placed_binding own) (statements_keep k p.handling [] body within)

private theorem clause_keeps (k : Knowledge) (p : Place) :
    (clause : Option Body) → (∀ v ∈ clauseVisits everywhere clause, v.Stands P) →
      Keeps P (clauseBody k p clause)
  | none, _ => .pure
  | some ⟨body, _⟩, within => .inBlock k (statements_keep k p.inBody [] body within)

private theorem options_keep (k : Knowledge) (p : Place) :
    (options : List ChoiceOption) → (∀ v ∈ optionVisits everywhere options, v.Stands P) →
      Keeps P (optionBodies k p options)
  | [], _ => .pure
  | ⟨label, body, span⟩ :: options, within => by
    simp only [optionVisits, List.cons_append, List.forall_mem_cons, List.forall_mem_append]
      at within
    obtain ⟨own, inside, others⟩ := within
    refine (Keeps.string own).seq (Keeps.seq ?_ (options_keep k p options others))
    exact .inBlock k (statements_keep k p.inBody [] body inside)

private theorem branches_keep (k : Knowledge) (p : Place) :
    (branches : List Branch) → (∀ v ∈ branchVisits everywhere branches, v.Stands P) →
      Keeps P (branchBodies k p branches)
  | [], _ => .pure
  | ⟨keyword, condition, body, span⟩ :: branches, within => by
    simp only [branchVisits, List.cons_append, List.forall_mem_cons, List.forall_mem_append]
      at within
    obtain ⟨-, inside, others⟩ := within
    refine Keeps.seq ?_ (branches_keep k p branches others)
    exact .inBlock k (statements_keep k p.inBody [] body inside)

private theorem action_keeps (k : Knowledge) (p : Place) :
    (a : Action) → (Visit.action a).Stands P → (∀ v ∈ a.visits everywhere, v.Stands P) →
      Keeps P (action k p a)
  | .session s, own, within => by
    simp only [Action.visits, List.forall_mem_append, List.forall_mem_cons] at within
    obtain ⟨inPrompt, context, properties⟩ := within
    refine .session k own (fun x hx ↦ inPrompt _ ?_) context properties
    rw [Option.mem_def.1 hx]
    exact List.mem_cons_self
  | .pipe ⟨input, operations, span⟩, _, within => by
    simp only [Action.visits, List.forall_mem_append] at within
    exact (expr_keeps k p input within.1).seq (operations_keep k p operations within.2)
  | .doBlock ⟨body, span⟩, _, within =>
    .inBlock k (statements_keep k p.inBody [] body within)
  | .invoke ⟨name, args, span⟩, own, within =>
    (exprs_keep k p args within).seq (.invocation k own)

private theorem operations_keep (k : Knowledge) (p : Place) :
    (operations : List Operation) → (∀ v ∈ operationVisits everywhere operations, v.Stands P) →
      Keeps P (operationBodies k p operations)
  | [], _ => .pure
  | ⟨operator, item, accumulator, body, span⟩ :: operations, within => by
    simp only [operationVisits, List.forall_mem_append, forall_opened] at within
    obtain ⟨⟨own, inside⟩, others⟩ := within
    refine Keeps.seq ?_ (operations_keep k p operations others)
    exact .inScope k (placed_operation own) (statements_keep k p.inBody [] body inside)

private theorem expr_keeps (k : Knowledge) (p : Place) :
    (e : Expr) → (∀ v ∈ e.visits everywhere, v.Stands P) → Keeps P (expr k p e)
  | .action a, within => by
    simp only [Expr.visits, forall_opened] at within
    exact action_keeps k p a within.1 within.2
  | .string s, within => .string (within (.string s) (by simp [Expr.visits]))
  | .number _, _ => .pure
  | .discretion _, _ => .pure
  | .ident name, within =>
    .useName .value ((within (.reference name) (by simp [Expr.visits])).leaf (.name name)
      List.mem_cons_self)
  | .array ⟨items, span⟩, within => exprs_keep k p items (List.forall_mem_cons.1 within).2
  | .object ⟨es, span⟩, within => entries_keep k p es (List.forall_mem_cons.1 within).2

private theorem exprs_keep (k : Knowledge) (p : Place) :
    (es : List Expr) → (∀ v ∈ valueVisits everywhere es, v.Stands P) → Keeps P (exprs k p es)
  | [], _ => .pure
  | e :: es, within => by
    simp only [valueVisits, List.forall_mem_append] at within
    exact (expr_keeps k p e within.1).seq (exprs_keep k p es within.2)

private theorem entries_keep (k : Knowledge) (p : Place) :
    (es : List Entry) → (∀ v ∈ entryVisits everywhere es, v.Stands P) → Keeps P (entries k p es)
  | [], _ => .pure
  | ⟨key, some value⟩ :: es, within => by
    simp only [entryVisits, List.forall_mem_append] at within
    exact (expr_keeps k p value within.1).seq (entries_keep k p es within.2)
  | ⟨key, none⟩ :: es, within => by
    simp only [entryVisits, List.forall_mem_cons] at within
    exact Keeps.seq (.useName .value (within.1.leaf (.name key) List.mem_cons_self))
      (entries_keep k p es within.2)

end

end Check

/-! ## Definitions -/

namespace Definitions

private theorem spans_repetitions {seen names : List Ident} (hseen : ∀ x ∈ seen, P x.span)
    (hnames : ∀ x ∈ names, P x.span) :
    ∀ r ∈ repetitions seen names, P r.1.span ∧ P r.2 := by
  induction names generalizing seen with
  | nil => simp [repetitions]
  | cons name names ih =>
    obtain ⟨first, rest⟩ := List.forall_mem_cons.1 hnames
    rw [repetitions]
    split
    · next earlier found =>
      refine List.forall_mem_cons.2 ⟨⟨first, ?_⟩, ih hseen rest⟩
      exact hseen earlier (List.mem_of_find?_eq_some found)
    · exact ih (List.forall_mem_append.2 ⟨hseen, List.forall_mem_singleton.2 first⟩) rest

end Definitions

/-- Whatever is defined is defined at such places. -/
structure Definitions.Stand (P : Span → Prop) (d : Definitions) : Prop where
  agents : ∀ x ∈ d.agents, P x.span
  blocks : ∀ x ∈ d.blocks.map Prod.fst, P x.span
  skills : ∀ x ∈ d.skills, P x.span

private theorem Definitions.stand_ofProgram {p : Program} (h : ∀ v ∈ p.visits, v.Stands P) :
    (Definitions.ofProgram p).Stand P := by
  have among : ∀ v ∈ bodyVisits Definitions.inside p.statements, v.Stands P := fun v hv ↦
    h v ((bodyVisits_sublist (fun _ _ ↦ rfl) p.statements).subset hv)
  refine ⟨?_, ?_, ?_⟩
  · intro x hx
    obtain ⟨v, hv, found⟩ := List.mem_filterMap.1 hx
    split at found
    · next a =>
      cases found
      exact (among _ hv).leaf (.name a.name) (by simp)
    · cases found
  · intro x hx
    obtain ⟨y, hy, rfl⟩ := List.mem_map.1 hx
    obtain ⟨v, hv, found⟩ := List.mem_filterMap.1 hy
    split at found
    · next b =>
      cases found
      exact (among _ hv).leaf (.name b.name) (by simp)
    · cases found
  · intro x hx
    obtain ⟨v, hv, found⟩ := List.mem_filterMap.1 hx
    split at found
    · next i =>
      cases found
      exact (among _ hv).own (by simp [Visit.extents, Statement.clauses])
    · cases found

private theorem Definitions.Stand.findings {d : Definitions} (h : d.Stand P) :
    ∀ f ∈ d.findings, ∀ s ∈ f.spans, P s := by
  have repeated {names : List Ident} {issue : String → Span → Issue} {text : String}
      (hnames : ∀ x ∈ names, P x.span)
      (involved : ∀ name first, (issue name first).related = [(first, text)]) :
      ∀ f ∈ (repetitions [] names).map (fun r ↦ (⟨issue r.1.val r.2, r.1.span⟩ : Finding)),
        ∀ s ∈ f.spans, P s := by
    rw [List.forall_mem_map]
    intro r hr
    obtain ⟨own, first⟩ := spans_repetitions (fun x hx ↦ absurd hx List.not_mem_nil) hnames r hr
    rw [Finding.spans, involved]
    exact List.forall_mem_cons.2 ⟨own, List.forall_mem_singleton.2 first⟩
  refine List.forall_mem_append.2 ⟨List.forall_mem_append.2 ⟨?_, ?_⟩, ?_⟩
  · exact repeated h.agents fun _ _ ↦ rfl
  · exact repeated h.blocks fun _ _ ↦ rfl
  · exact repeated h.skills fun _ _ ↦ rfl

private theorem spans_commentFindings (comments : List Comment) :
    ∀ f ∈ commentFindings comments, ∀ s ∈ f.spans, s ∈ comments.map Comment.span := by
  intro f hf
  obtain ⟨c, hc, found⟩ := List.mem_filterMap.1 hf
  obtain ⟨marker, -, rfl⟩ := Option.map_eq_some_iff.1 found
  exact List.forall_mem_singleton.2 (List.mem_map_of_mem hc)

/-- The places that findings of a program are about are recorded in it. -/
theorem spans_rawFindings (p : Program) (options : ValidatorOptions) :
    ∀ f ∈ rawFindings p options, ∀ s ∈ f.spans, s ∈ p.spans := by
  have parts : ∀ v ∈ p.visits, v.Stands (· ∈ p.spans) := fun v hv s hs ↦
    List.mem_cons_of_mem _ (List.mem_append_right _ (List.mem_flatMap.2 ⟨v, hv, hs⟩))
  have comments : ∀ s ∈ p.comments.map Comment.span, s ∈ p.spans := fun s hs ↦
    List.mem_cons_of_mem _ (List.mem_append_left _ hs)
  let k : Knowledge := { options, definitions := .ofProgram p }
  have start : ∀ f ∈ k.definitions.findings
      ++ (if options.warnOnTodoComments then commentFindings p.comments else []),
      ∀ s ∈ f.spans, s ∈ p.spans := by
    refine List.forall_mem_append.2 ⟨(Definitions.stand_ofProgram parts).findings, ?_⟩
    split
    · exact fun f hf s hs ↦ comments s (spans_commentFindings p.comments f hf s hs)
    · exact fun f hf ↦ absurd hf List.not_mem_nil
  have after := Check.statements_keep k {} [] p.statements parts ⟨[[]], _⟩
    ⟨by simp [Scopes.Stand], start⟩
  have closed := Check.Keeps.closeScope k _ after
  exact closed.findings

/-- The places that findings of a program are about are recorded in it. -/
theorem validate_spans (p : Program) (options : ValidatorOptions) :
    ∀ f ∈ (validate p options).findings, ∀ s ∈ f.spans, s ∈ p.spans := by
  intro f hf
  have raw : f ∈ rawFindings p options := by
    rw [ValidationResult.findings, List.mem_mergeSort] at hf
    rcases List.mem_append.1 hf with hf | hf <;>
      exact List.mem_mergeSort.1 (List.mem_filter.1 hf).1
  exact spans_rawFindings p options f raw

end

end ProseLang
