import ProseLang.Proofs.Validation.Occurrence
import ProseLang.Validation.Result

/-!
# Checking names

A check finds about the names of a program exactly what lexical scoping says (`validate_scoping`).
The scopes that the check carries along give names the meaning that the environment gives them
(`Scopes.Means`): marks of use change no meaning, and a scope that is closed leaves what was open
around it. One step of the check is compared to the occurrences that it passes (`Check.Finds`), and
the comparison is put together along the tree.
-/

namespace ProseLang

/-- The declaration of a symbol. -/
def Symbol.declaration (x : Symbol) : Declaration := ⟨x.kind, x.span⟩

/-- Whether open scopes give names the meaning that an environment gives them. -/
inductive Scopes.Means : Scopes → Env → Prop
  | nil : Means [] []
  | cons {s : Scope} {ss : Scopes} {scope : String → Option Declaration} {Γ : Env}
      (head : ∀ name, (s.find? name).map Symbol.declaration = scope name) (tail : Means ss Γ) :
      Means (s :: ss) (scope :: Γ)

namespace Scopes.Means

variable {ss : Scopes} {Γ : Env}

/-- The checker looks a name up as the environment does. -/
theorem lookup? (h : Means ss Γ) (name : String) :
    (ss.lookup? name).map Symbol.declaration = Γ.resolve name := by
  induction h with
  | nil => rfl
  | @cons s ss scope Γ head tail ih =>
    rw [Scopes.lookup?, Env.resolve, List.findSome?_cons, List.findSome?_cons, ← head name]
    cases s.find? name with
    | some x => rfl
    | none => exact ih

/-- A name is bound for the checker if it means something in the environment. -/
theorem binds (h : Means ss Γ) (name : String) : ss.binds name = (Γ.resolve name).isSome := by
  rw [Scopes.binds, ← h.lookup? name, Option.isSome_map]

private theorem find?_markUsed (s : Scope) (name other : String) :
    ((s.markUsed name).find? other).map Symbol.declaration
      = (s.find? other).map Symbol.declaration := by
  induction s with
  | nil => rfl
  | cons x s ih =>
    have kept : (if x.name = name then { x with used := true } else x).name = x.name := by
      split <;> rfl
    rw [Scope.markUsed, List.map_cons, Scope.find?, Scope.find?, List.find?_cons, List.find?_cons,
      kept]
    cases decide (x.name = other) with
    | true =>
      by_cases used : x.name = name
      · rw [if_pos used]
        rfl
      · rw [if_neg used]
    | false => exact ih

/-- The use of a name changes no meaning. -/
theorem markUsed (h : Means ss Γ) (name : String) : Means (ss.markUsed name) Γ := by
  induction h with
  | nil => exact .nil
  | @cons s ss scope Γ head tail ih =>
    rw [Scopes.markUsed]
    split
    · apply Means.cons _ tail
      intro other
      rw [find?_markUsed, head]
    · exact .cons head ih

/-- A declaration adds to the innermost scope what it adds to the environment. -/
theorem declare (h : Means ss Γ) (name : Ident) (kind : SymbolKind) :
    Means (ss.declare { name := name.val, kind, span := name.span }).1 (Γ.bind name kind) := by
  have fresh (other : String) :
      (Scope.find? [⟨name.val, kind, name.span, false⟩] other).map Symbol.declaration
        = if name.val = other then some ⟨kind, name.span⟩ else none := by
    by_cases same : name.val = other
    · simp [Scope.find?, same, Symbol.declaration]
    · simp [Scope.find?, same]
  cases h with
  | nil => exact .cons fresh .nil
  | @cons s ss scope Γ head tail =>
    cases found : s.find? name.val with
    | some first =>
      have kept : (Scopes.declare (s :: ss) ⟨name.val, kind, name.span, false⟩).1 = s :: ss := by
        rw [Scopes.declare_duplicate found]
      rw [kept]
      apply Means.cons _ tail
      intro other
      change (s.find? other).map Symbol.declaration
        = (scope other).or (if name.val = other then some ⟨kind, name.span⟩ else none)
      by_cases same : name.val = other
      · rw [← same, ← head name.val, found]
        rfl
      · rw [if_neg same, Option.or_none, head other]
    | none =>
      have added : (Scopes.declare (s :: ss) ⟨name.val, kind, name.span, false⟩).1
          = (s ++ [⟨name.val, kind, name.span, false⟩]) :: ss := by
        simp [Scopes.declare, found]
      rw [added]
      apply Means.cons _ tail
      intro other
      have both : Scope.find? (s ++ [⟨name.val, kind, name.span, false⟩]) other
          = (s.find? other).or (Scope.find? [⟨name.val, kind, name.span, false⟩] other) :=
        List.find?_append
      rw [both, Option.map_or, fresh, head other]
      rfl

/-- A scope that is opened has no names. -/
theorem openScope (h : Means ss Γ) : Means ([] :: ss) (Env.emptyScope :: Γ) :=
  .cons (fun _ ↦ rfl) h

/-- Scopes that mean an environment do so without the innermost one. -/
theorem tail (h : Means ss Γ) : Means ss.tail Γ.tail := by
  cases h with
  | nil => exact .nil
  | cons head tail => exact tail

end Scopes.Means

/-! ## Findings about names -/

/-- Whether an issue is about what a name means. -/
def Issue.isScoping : Issue → Bool
  | undefinedVariable _ _ | undeclaredAssignment _ | constAssignment _ _ | sessionAssignment _
    _ => true
  | _ => false

/-- The findings about what names mean. -/
def scopingFindings (fs : List Finding) : List Finding := fs.filter (·.issue.isScoping)

private theorem scopingFindings_append (a b : List Finding) :
    scopingFindings (a ++ b) = scopingFindings a ++ scopingFindings b := List.filter_append ..

private theorem scopingFindings_eq_nil {fs : List Finding}
    (h : ∀ f ∈ fs, f.issue.isScoping = false) : scopingFindings fs = [] :=
  List.filter_eq_nil_iff.2 fun f hf ↦ by simp [h f hf]

namespace Occurrence

/-- What there is to say about an occurrence of a name. -/
def findings (o : Env × Occurrence) : List Finding :=
  (undefined? o).toList ++ (undeclared? o).toList ++ (reassigned? o).toList

variable {Γ : Env}

private theorem findings_use (how : NameUse) (name : Ident) :
    findings (Γ, .use how name)
      = if (Γ.resolve name.val).isNone then [⟨.undefinedVariable name.val how, name.span⟩]
        else [] := by
  simp only [findings, undefined?, undeclared?, reassigned?]
  split <;> rfl

private theorem findings_assign (name : Ident) (span : Span) (isBranch : Bool) :
    findings (Γ, .assign name span isBranch)
      = match Γ.resolve name.val with
        | none => if isBranch then [] else [⟨.undeclaredAssignment name.val, span⟩]
        | some ⟨.constant, declared⟩ => [⟨.constAssignment name.val declared, span⟩]
        | some ⟨.session, declared⟩ => [⟨.sessionAssignment name.val declared, span⟩]
        | some _ => [] := by
  simp only [findings, undefined?, undeclared?, reassigned?]
  cases Γ.resolve name.val with
  | none => cases isBranch <;> rfl
  | some d =>
    rw [Option.isNone_some, Bool.and_false]
    rcases d with ⟨kind, declared⟩
    cases kind <;> rfl

/-- What there is to say about an occurrence has three codes, one for each way to go wrong. -/
theorem filter_findings (o : Env × Occurrence) (c : Code) :
    (findings o).filter (·.issue.code = c)
      = (if c = .undefinedVariable then (undefined? o).toList else [])
        ++ (if c = .undeclaredAssignment then (undeclared? o).toList else [])
        ++ (if c = .constReassignment then (reassigned? o).toList else []) := by
  have only (x : Option Finding) (d : Code) (h : ∀ f, x = some f → f.issue.code = d) :
      x.toList.filter (·.issue.code = c) = if c = d then x.toList else [] := by
    cases x with
    | none => split <;> rfl
    | some f => simp [h f rfl, List.filter_cons, eq_comm]
  rw [findings, List.filter_append, List.filter_append]
  congr 1
  · congr 1
    · apply only
      intro f said
      rcases o with ⟨Γ, _ | _⟩ <;> simp only [undefined?] at said
      · split at said <;> cases said
        rfl
      · cases said
    · apply only
      intro f said
      rcases o with ⟨Γ, _ | _⟩ <;> simp only [undeclared?] at said
      · cases said
      · split at said <;> cases said
        rfl
  · apply only
    intro f said
    rcases o with ⟨Γ, _ | _⟩ <;> simp only [reassigned?] at said
    · cases said
    · split at said <;> cases said <;> rfl

end Occurrence

/-- What is declared in vain is not about what names mean. -/
theorem scopingFindings_unused (k : Knowledge) (s : Scope) :
    scopingFindings (Check.unusedFindings k s) = [] := by
  apply scopingFindings_eq_nil
  intro f member
  rw [Check.unusedFindings] at member
  split at member
  · obtain ⟨x, -, rfl⟩ := List.mem_map.1 member
    rfl
  · cases member

/-- What follows a statement is a branch if the statement is. -/
theorem Place.isBranch_past (p : Place) (s : Statement) : (p.past s).isBranch = p.isBranch := by
  cases s <;> rfl

namespace Check

/-- Whether a check, where names mean `Γ`, finds about names what there is to say about some
occurrences, and names mean `Γ'` after it. -/
def Finds (c : Check Unit) (Γ Γ' : Env) (os : List (Env × Occurrence)) : Prop :=
  ∀ s : CheckState, s.scopes.Means Γ → (c.run s).2.scopes.Means Γ'
    ∧ scopingFindings (c.run s).2.findings
      = scopingFindings s.findings ++ os.flatMap Occurrence.findings

namespace Finds

variable {Γ Γ' Δ : Env} {c d : Check Unit} {os ps : List (Env × Occurrence)}

private theorem pure (Γ : Env) : Finds (pure ()) Γ Γ [] := fun _ h ↦ ⟨h, (List.append_nil _).symm⟩

/-- One check after another. -/
theorem seq (hc : Finds c Γ Γ' os) (hd : Finds d Γ' Δ ps) :
    Finds (do c; d) Γ Δ (os ++ ps) := by
  intro s h
  obtain ⟨means, found⟩ := hc s h
  obtain ⟨means', found'⟩ := hd (c.run s).2 means
  apply And.intro means'
  rw [List.flatMap_append, ← List.append_assoc, ← found, ← found']
  rfl

/-- A check that is not about names before another. -/
theorem quiet (hc : Finds c Γ Γ []) (hd : Finds d Γ Δ ps) : Finds (do c; d) Γ Δ ps := hc.seq hd

/-- A check before another that is not about names. -/
theorem done (hc : Finds c Γ Γ' os) (hd : Finds d Γ' Δ []) : Finds (do c; d) Γ Δ os := by
  have both := hc.seq hd
  rwa [List.append_nil] at both

private theorem note {issue : Issue} {span : Span} (h : issue.isScoping = false) :
    Finds (Check.note issue span) Γ Γ [] := by
  intro s means
  apply And.intro means
  have quiet : scopingFindings [⟨issue, span⟩] = [] := scopingFindings_eq_nil (by simpa using h)
  change scopingFindings (s.findings ++ [⟨issue, span⟩]) = _
  rw [scopingFindings_append, quiet]
  rfl

private theorem noteIf {condition : Bool} {issue : Issue} {span : Span}
    (h : issue.isScoping = false) : Finds (Check.noteIf condition issue span) Γ Γ [] := by
  cases condition with
  | true => exact .note h
  | false => exact .pure Γ

private theorem markUsed (name : String) : Finds (Check.markUsed name) Γ Γ [] :=
  fun _ means ↦ ⟨means.markUsed name, (List.append_nil _).symm⟩

private theorem forM {α : Type} {f : α → Check Unit} {xs : List α}
    {os : α → List (Env × Occurrence)}
    (h : ∀ x, Finds (f x) Γ Γ (os x)) : Finds (xs.forM f) Γ Γ (xs.flatMap os) := by
  induction xs with
  | nil => exact .pure Γ
  | cons x xs ih =>
    rw [List.flatMap_cons]
    exact (h x).seq ih

private theorem forM_quiet {α : Type} {f : α → Check Unit} {xs : List α}
    (h : ∀ x, Finds (f x) Γ Γ []) : Finds (xs.forM f) Γ Γ [] := by
  have each : Finds (xs.forM f) Γ Γ (xs.flatMap fun _ ↦ []) := .forM h
  rwa [List.flatMap_eq_nil_iff.2 fun _ _ ↦ rfl] at each

private theorem optionForM {α : Type} {f : α → Check Unit} {x : Option α}
    {os : α → List (Env × Occurrence)} (h : ∀ x, Finds (f x) Γ Γ (os x)) :
    Finds (x.forM f) Γ Γ (x.toList.flatMap os) := by
  cases x with
  | none => exact .pure Γ
  | some x =>
    rw [Option.toList_some, List.flatMap_singleton]
    exact h x

private theorem optionForM_quiet {α : Type} {f : α → Check Unit} {x : Option α}
    (h : ∀ x, Finds (f x) Γ Γ []) : Finds (x.forM f) Γ Γ [] := by
  cases x with
  | none => exact .pure Γ
  | some x => exact h x

/-- An occurrence that there is something to say about. -/
theorem say {o : Env × Occurrence} {issue : Issue} {span : Span}
    (h : Occurrence.findings o = [⟨issue, span⟩]) (scoping : issue.isScoping = true) :
    Finds (Check.note issue span) Γ Γ [o] := by
  intro s means
  apply And.intro means
  have kept : scopingFindings [⟨issue, span⟩] = [⟨issue, span⟩] :=
    List.filter_eq_self.2 (by simpa using scoping)
  change scopingFindings (s.findings ++ [⟨issue, span⟩]) = _
  rw [scopingFindings_append, kept, List.flatMap_singleton, h]

/-- An occurrence that there is nothing to say about. -/
theorem pass {o : Env × Occurrence} (h : Occurrence.findings o = []) (hc : Finds c Γ Δ []) :
    Finds c Γ Δ [o] := by
  intro s means
  rw [List.flatMap_singleton, h]
  exact hc s means

/-- The use of a name is found if the name means nothing. -/
theorem useName (how : NameUse) (name : Ident) :
    Finds (Check.useName how name) Γ Γ [(Γ, .use how name)] := by
  have report (bound : Bool) : bound = (Γ.resolve name.val).isSome →
      Finds (if bound then Check.markUsed name.val
        else Check.note (.undefinedVariable name.val how) name.span) Γ Γ [(Γ, .use how name)] := by
    intro meaning
    cases bound with
    | true =>
      apply pass _ (markUsed name.val)
      rw [Occurrence.findings_use, ← Option.not_isSome, ← meaning]
      rfl
    | false =>
      apply say _ rfl
      rw [Occurrence.findings_use, ← Option.not_isSome, ← meaning]
      rfl
  intro s means
  exact report (s.scopes.binds name.val) (means.binds name.val) s means

/-- A declaration gives its name a meaning; what it meets is not about the use of names. -/
theorem declare (name : Ident) (kind : SymbolKind) (written : Bool) :
    Finds (Check.declare name kind written) Γ (Γ.bind name kind) [] := by
  intro s means
  have after := means.declare name kind
  rw [Check.declare]
  simp only [StateT.run_bind, StateT.run_get, StateT.run_set, pure_bind]
  cases met : s.scopes.declare { name := name.val, kind, span := name.span } with
  | mk scopes declared =>
    rw [met] at after
    dsimp only
    split
    · exact Finds.pure _ { s with scopes } after
    · apply Finds.note _ { s with scopes } after
      split <;> rfl
    · exact Finds.noteIf rfl { s with scopes } after

/-- The names of a construct are declared in their order. -/
theorem declareLocals (ls : List Local) :
    Finds (Check.declareLocals ls) Γ (ls.foldl (fun Δ l ↦ Env.bind Δ l.name l.kind) Γ) [] := by
  induction ls generalizing Γ with
  | nil => exact .pure Γ
  | cons l ls ih => exact (declare l.name l.kind l.written).seq ih

/-- A scope leaves what names mean around it. What it declares in vain is not about the meaning of
names. -/
theorem inScope (k : Knowledge) {ls : List Local} {kind : SymbolKind} {names : List Ident}
    (locals : ls.foldl (fun Δ l ↦ Env.bind Δ l.name l.kind) (Env.emptyScope :: Γ)
      = Γ.enter kind names)
    (body : Finds c (Γ.enter kind names) Δ os) (left : Δ.tail = Γ) :
    Finds (Check.inScope k ls c) Γ Γ os := by
  intro s means
  have opened : Finds (do Check.declareLocals ls; c) (Env.emptyScope :: Γ) Δ os := by
    have declared : Finds (Check.declareLocals ls) (Env.emptyScope :: Γ)
      (Γ.enter kind names) [] := by
      rw [← locals]
      exact declareLocals ls
    exact declared.seq body
  obtain ⟨means', found⟩ := opened (Check.openScope.run s).2 means.openScope
  have after := means'.tail
  rw [left] at after
  apply And.intro after
  change scopingFindings (_ ++ unusedFindings k _) = _
  rw [scopingFindings_append, scopingFindings_unused, List.append_nil]
  exact found

/-! ### Leaves -/

/-- Names that are used one after another. -/
theorem useNames (how : NameUse) (names : List Ident) :
    Finds (names.forM (Check.useName how)) Γ Γ (names.map fun name ↦ (Γ, .use how name)) := by
  induction names with
  | nil => exact .pure Γ
  | cons name names ih => exact (useName how name).seq ih

private theorem string (s : StringLit) : Finds (Check.string s) Γ Γ (s.occurrences Γ) :=
  useNames .interpolation s.interpolations

private theorem context (x : Context) :
    Finds (Check.context x) Γ Γ (x.names.map fun name ↦ (Γ, .use .context name)) :=
  useNames .context x.names

private theorem model (k : Knowledge) (m : Ident) : Finds (Check.model k m) Γ Γ [] := .noteIf rfl

private theorem skills (k : Knowledge) (names : List Ident) : Finds (Check.skills k names) Γ Γ [] :=
  .forM_quiet fun _ ↦ .noteIf rfl

private theorem unknownProperties (owner : PropertyOwner) (properties : List Property) :
    Finds (Check.unknownProperties owner properties) Γ Γ [] :=
  .forM_quiet fun _ ↦ .note rfl

private theorem permission (p : Property) : Finds (Check.permission p) Γ Γ [] := by
  rw [Check.permission]
  split
  · exact .noteIf rfl
  · exact .note rfl

private theorem agent (k : Knowledge) (a : Agent) : Finds (Check.agent k a) Γ Γ [] := by
  apply Finds.quiet (.noteIf rfl)
  apply Finds.quiet (.optionForM_quiet (model k))
  apply Finds.quiet (skills k a.skills)
  apply Finds.quiet (.forM_quiet permission)
  exact unknownProperties .agent a.properties

private theorem importSkill (k : Knowledge) (p : Place) (i : Import) :
    Finds (Check.importSkill k p i) Γ Γ [] :=
  .quiet (.noteIf rfl) (.noteIf rfl)

/-- A session uses the names in its prompt and in its context. -/
theorem session (k : Knowledge) (s : Session) :
    Finds (Check.session k s) Γ Γ (SessionOf.occurrences Γ s) := by
  apply Finds.quiet (.noteIf rfl)
  apply Finds.quiet (.optionForM_quiet fun _ ↦ .noteIf rfl)
  apply Finds.quiet (.optionForM_quiet (model k))
  apply Finds.quiet (skills k _)
  apply Finds.quiet (.optionForM_quiet fun _ ↦ .noteIf rfl)
  apply Finds.quiet (.optionForM_quiet fun _ ↦ .noteIf rfl)
  apply Finds.quiet (unknownProperties .session s.properties)
  exact .seq (.optionForM string) (context s.context)

private theorem parallel (p : Parallel) : Finds (Check.parallel p) Γ Γ [] := by
  have modifiers : Finds (Check.parallelModifiers p) Γ Γ [] := by
    apply Finds.quiet (.optionForM_quiet fun _ ↦ .noteIf rfl)
    apply Finds.quiet (.optionForM_quiet fun _ ↦ .noteIf rfl)
    apply Finds.quiet (.optionForM_quiet fun _ ↦ .quiet (.noteIf rfl) (.noteIf rfl))
    exact .optionForM_quiet fun _ ↦ .noteIf rfl
  exact modifiers.quiet (.noteIf rfl)

private theorem invocation (k : Knowledge) (i : Invocation) :
    Finds (Check.invocation k i) Γ Γ [] := by
  rw [Check.invocation]
  split
  · exact .note rfl
  · exact .noteIf rfl

/-- An assignment is found if its target must not be assigned; a branch may introduce it. -/
theorem assignment (p : Place) (name : Ident) (span : Span) :
    Finds (Check.assignment p name span) Γ
      (if p.isBranch && (Γ.resolve name.val).isNone then Γ.bind name .branch else Γ)
      [(Γ, .assign name span p.isBranch)] := by
  intro s means
  have meaning := means.lookup? name.val
  rw [Check.assignment]
  simp only [StateT.run_bind, StateT.run_get, pure_bind]
  cases target : s.scopes.lookup? name.val with
  | none =>
    rw [target] at meaning
    rw [← meaning]
    cases p.isBranch with
    | true =>
      apply pass _ (declare name .branch true) s means
      rw [Occurrence.findings_assign, ← meaning]
      rfl
    | false =>
      apply say _ rfl s means
      rw [Occurrence.findings_assign, ← meaning]
      rfl
  | some x =>
    rw [target] at meaning
    rw [← meaning, Option.map_some, Option.isNone_some, Bool.and_false]
    rcases x with ⟨_, kind, declared, _⟩
    cases kind
    case constant | session =>
      apply say _ rfl s means
      rw [Occurrence.findings_assign, ← meaning]
      rfl
    all_goals
      apply pass _ (.pure Γ) s means
      rw [Occurrence.findings_assign, ← meaning]
      rfl

/-- A body with a scope of its own. -/
theorem body (k : Knowledge) {ls : List Local} {kind : SymbolKind} {names : List Ident}
    {inner : List Statement}
    (locals : ls.foldl (fun Δ l ↦ Env.bind Δ l.name l.kind) (Env.emptyScope :: Γ)
      = Γ.enter kind names)
    (h : Finds c (Γ.enter kind names) (bodyEnvAfter false (Γ.enter kind names) inner) os) :
    Finds (Check.inScope k ls c) Γ Γ os := by
  apply inScope k locals h
  rw [tail_bodyEnvAfter, Env.tail_enter]

end Finds

/-- The parameters of a block are what its scope starts with. -/
theorem locals_params (Γ : Env) (params : List Ident) :
    (params.map fun name ↦ ({ name, kind := .parameter } : Local)).foldl
        (fun Δ l ↦ Env.bind Δ l.name l.kind) (Env.emptyScope :: Γ)
      = Γ.enter .parameter params := List.foldl_map

/-- The variable that a header binds is what its scope starts with. -/
theorem locals_asBinding (Γ : Env) (index : Option AsBinding) :
    (index.map fun b ↦ Local.ofIdent b.name).toList.foldl
        (fun Δ l ↦ Env.bind Δ l.name l.kind) (Env.emptyScope :: Γ)
      = Γ.enter .bodyLocal (index.map AsBinding.name).toList := by
  cases index <;> rfl

/-- The names of a `for` are what its scope starts with. -/
theorem locals_forEach (Γ : Env) (item : Ident) (index : Option Ident) :
    (Local.ofIdent item :: (index.map Local.ofIdent).toList).foldl
        (fun Δ l ↦ Env.bind Δ l.name l.kind) (Env.emptyScope :: Γ)
      = Γ.enter .bodyLocal (item :: index.toList) := by
  cases index <;> rfl

/-- An operation declares its names, written or not. -/
theorem locals_operation (Γ : Env) (o : Operation) :
    (operationLocals o).foldl (fun Δ l ↦ Env.bind Δ l.name l.kind) (Env.emptyScope :: Γ)
      = Γ.enter .bodyLocal o.names := by
  rcases o with ⟨operator, item, accumulator, body, span⟩
  rw [operationLocals, OperationOf.names]
  split <;> cases item <;> cases accumulator <;> rfl

mutual

/-- The check of a statement. -/
theorem statement_finds (k : Knowledge) (p : Place) (Γ : Env) :
    (s : Statement) →
      Finds (statement k p s) Γ (s.envAfter p.isBranch Γ) (s.occurrences p.isBranch Γ)
  | .comment _ => .pure Γ
  | .importSkill i => .importSkill k p i
  | .agent a => .agent k a
  | .block ⟨_, params, body, _⟩ => by
    rw [statement, Statement.occurrences]
    exact .body k (locals_params Γ params) (statements_finds k p.inBody [] _ body)
  | .binding kind ⟨name, value, _⟩ => by
    rw [statement, Statement.envAfter, Statement.occurrences]
    apply Finds.done (expr_finds k p Γ value)
    cases kind
    · exact .declare name .variable true
    · exact .declare name .constant true
  | .assignment ⟨name, value, span⟩ => by
    rw [statement, Statement.envAfter, Statement.occurrences]
    exact (expr_finds k p Γ value).seq (.assignment p name span)
  | .action (.session s) => by
    rw [statement, Statement.envAfter, Statement.occurrences]
    apply Finds.done (action_finds k p Γ (.session s))
    cases s.name with
    | none => exact .pure Γ
    | some name => exact .declare name .session true
  | .action (.pipe x) => by
    rw [Statement.occurrences]
    exact (action_finds k p Γ (.pipe x)).done (.pure Γ)
  | .action (.doBlock b) => by
    rw [Statement.occurrences]
    exact (action_finds k p Γ (.doBlock b)).done (.pure Γ)
  | .action (.invoke i) => by
    rw [Statement.occurrences]
    exact (action_finds k p Γ (.invoke i)).done (.pure Γ)
  | .parallel ⟨join, onFail, count, keys, body, span⟩ => by
    rw [statement, Statement.envAfter, Statement.occurrences]
    exact (Finds.parallel _).quiet (statements_finds k p.branches [] Γ body)
  | .repeated ⟨count, index, body, _⟩ => by
    rw [statement, Statement.occurrences]
    apply Finds.quiet (.noteIf rfl)
    exact .body k (locals_asBinding Γ index) (statements_finds k p.inBody [] _ body)
  | .forEach ⟨item, index, collection, _, _, _, body, _⟩ => by
    rw [statement, Statement.occurrences]
    apply Finds.seq (expr_finds k p Γ collection)
    exact .body k (locals_forEach Γ item index) (statements_finds k p.inBody [] _ body)
  | .loop ⟨condition, maxIterations, index, _, body, span⟩ => by
    rw [statement, Statement.occurrences]
    apply Finds.quiet (.noteIf rfl)
    exact .body k (locals_asBinding Γ index) (statements_finds k p.inBody [] _ body)
  | .attempt ⟨body, handler, cleanup, _⟩ => by
    rw [statement, Statement.occurrences, List.append_assoc]
    apply Finds.seq (.body k rfl (statements_finds k p.inBody [] _ body))
    exact (handlerBody_finds k p Γ handler).seq (clauseBody_finds k p Γ cleanup)
  | .throw ⟨some message, _⟩ => by
    rw [statement, Statement.occurrences, Option.toList_some, List.flatMap_singleton]
    exact .string message
  | .throw ⟨none, _⟩ => by
    rw [statement, Statement.occurrences]
    exact .noteIf rfl
  | .choice ⟨_, options, _⟩ => by
    rw [statement, Statement.occurrences]
    exact optionBodies_finds k p Γ options
  | .conditional ⟨branches, otherwise, _⟩ => by
    rw [statement, Statement.occurrences]
    exact (branchBodies_finds k p Γ branches).seq (clauseBody_finds k p Γ otherwise)

/-- The check of statements, each of which sees what the ones before it declare. -/
theorem statements_finds (k : Knowledge) (p : Place) (before : List String) (Γ : Env) :
    (body : List Statement) →
      Finds (statements k p before body) Γ (bodyEnvAfter p.isBranch Γ body)
        (bodyOccurrences p.isBranch Γ body)
  | [] => by
    rw [statements]
    split
    · exact .forM_quiet .markUsed
    · exact .pure Γ
  | s :: body => by
    rw [statements, bodyEnvAfter, bodyOccurrences]
    have rest (before : List String) := statements_finds k (p.past s) before
      (s.envAfter p.isBranch Γ) body
    rw [Place.isBranch_past] at rest
    have all (before : List String) := (statement_finds k p Γ s).seq (rest before)
    split
    · exact .quiet (.forM_quiet .markUsed) (all _)
    · exact all _

private theorem handlerBody_finds (k : Knowledge) (p : Place) (Γ : Env) :
    (h : Option Handler) → Finds (handlerBody k p h) Γ Γ (handlerOccurrences Γ h)
  | none => .pure Γ
  | some ⟨error, body, _⟩ => by
    rw [handlerBody, handlerOccurrences]
    exact .body k (locals_asBinding Γ error) (statements_finds k p.handling [] _ body)

private theorem clauseBody_finds (k : Knowledge) (p : Place) (Γ : Env) :
    (c : Option Body) → Finds (clauseBody k p c) Γ Γ (clauseOccurrences Γ c)
  | none => .pure Γ
  | some ⟨body, _⟩ => by
    rw [clauseBody, clauseOccurrences]
    exact .body k rfl (statements_finds k p.inBody [] _ body)

private theorem optionBodies_finds (k : Knowledge) (p : Place) (Γ : Env) :
    (options : List ChoiceOption) →
      Finds (optionBodies k p options) Γ Γ (optionOccurrences Γ options)
  | [] => .pure Γ
  | ⟨label, body, _⟩ :: options => by
    rw [optionBodies, optionOccurrences, List.append_assoc]
    apply Finds.seq (.string label)
    apply Finds.seq (.body k rfl (statements_finds k p.inBody [] _ body))
    exact optionBodies_finds k p Γ options

private theorem branchBodies_finds (k : Knowledge) (p : Place) (Γ : Env) :
    (branches : List Branch) →
      Finds (branchBodies k p branches) Γ Γ (branchOccurrences Γ branches)
  | [] => .pure Γ
  | ⟨_, _, body, _⟩ :: branches => by
    rw [branchBodies, branchOccurrences]
    apply Finds.seq (.body k rfl (statements_finds k p.inBody [] _ body))
    exact branchBodies_finds k p Γ branches

/-- The check of an action. -/
theorem action_finds (k : Knowledge) (p : Place) (Γ : Env) :
    (a : Action) → Finds (action k p a) Γ Γ (a.occurrences Γ)
  | .session s => .session k s
  | .pipe ⟨input, operations, _⟩ => by
    rw [action, Action.occurrences]
    exact (expr_finds k p Γ input).seq (operationBodies_finds k p Γ operations)
  | .doBlock ⟨body, _⟩ => by
    rw [action, Action.occurrences]
    exact .body k rfl (statements_finds k p.inBody [] _ body)
  | .invoke ⟨name, args, span⟩ => by
    rw [action, Action.occurrences]
    exact (exprs_finds k p Γ args).done (.invocation k ⟨name, args, span⟩)

private theorem operationBodies_finds (k : Knowledge) (p : Place) (Γ : Env) :
    (operations : List Operation) →
      Finds (operationBodies k p operations) Γ Γ (operationOccurrences Γ operations)
  | [] => .pure Γ
  | ⟨operator, item, accumulator, body, span⟩ :: operations => by
    rw [operationBodies, operationOccurrences]
    apply Finds.seq (.body k (locals_operation Γ _) (statements_finds k p.inBody [] _ body))
    exact operationBodies_finds k p Γ operations

/-- The check of a value. -/
theorem expr_finds (k : Knowledge) (p : Place) (Γ : Env) :
    (e : Expr) → Finds (expr k p e) Γ Γ (e.occurrences Γ)
  | .action a => action_finds k p Γ a
  | .string s => .string s
  | .number _ | .discretion _ => .pure Γ
  | .ident name => .useName .value name
  | .array ⟨items, _⟩ => exprs_finds k p Γ items
  | .object ⟨es, _⟩ => entries_finds k p Γ es

private theorem exprs_finds (k : Knowledge) (p : Place) (Γ : Env) :
    (es : List Expr) → Finds (exprs k p es) Γ Γ (valueOccurrences Γ es)
  | [] => .pure Γ
  | e :: es => by
    rw [exprs, valueOccurrences]
    exact (expr_finds k p Γ e).seq (exprs_finds k p Γ es)

private theorem entries_finds (k : Knowledge) (p : Place) (Γ : Env) :
    (es : List Entry) → Finds (entries k p es) Γ Γ (entryOccurrences Γ es)
  | [] => .pure Γ
  | ⟨_, some value⟩ :: es => by
    rw [entries, entryOccurrences]
    exact (expr_finds k p Γ value).seq (entries_finds k p Γ es)
  | ⟨key, none⟩ :: es => by
    rw [entries, entryOccurrences]
    exact (Finds.useName .value key).seq (entries_finds k p Γ es)

end

end Check

/-! ## Validation -/

/-- A program is found to be criticised, about what names mean, for what there is to say about the
names that occur in it. -/
theorem scopingFindings_raw (p : Program) (options : ValidatorOptions) :
    scopingFindings (rawFindings p options) = p.occurrences.flatMap Occurrence.findings := by
  let k : Knowledge := { options, definitions := .ofProgram p }
  let start := k.definitions.findings
    ++ if options.warnOnTodoComments then commentFindings p.comments else []
  have definitions : scopingFindings k.definitions.findings = [] := by
    apply scopingFindings_eq_nil
    intro f member
    simp only [Definitions.findings, List.mem_append, List.mem_map] at member
    rcases member with (⟨_, -, rfl⟩ | ⟨_, -, rfl⟩) | ⟨_, -, rfl⟩ <;> rfl
  have comments : scopingFindings
      (if options.warnOnTodoComments then commentFindings p.comments else []) = [] := by
    apply scopingFindings_eq_nil
    intro f member
    split at member
    · simp only [commentFindings, List.mem_filterMap, Option.map_eq_some_iff] at member
      obtain ⟨_, -, _, -, rfl⟩ := member
      rfl
    · cases member
  have empty : Scopes.Means [[]] [Env.emptyScope] := Scopes.Means.nil.openScope
  obtain ⟨-, found⟩ := Check.statements_finds k {} [] [Env.emptyScope] p.statements
    { scopes := [[]], findings := start } empty
  change scopingFindings (_ ++ Check.unusedFindings k _) = _
  rw [scopingFindings_append, scopingFindings_unused, List.append_nil]
  apply found.trans
  change scopingFindings (_ ++ _) ++ _ = _
  rw [scopingFindings_append, definitions, comments]
  rfl

namespace ValidationResult

/-- The findings under a code. -/
def under (r : ValidationResult) (c : Code) : List Finding :=
  r.findings.filter (·.issue.code = c)

private theorem findings_perm (p : Program) (options : ValidatorOptions) :
    (validate p options).findings.Perm (rawFindings p options) := by
  apply (List.mergeSort_perm _ _).trans
  apply (List.filter_append_perm Finding.isError _).trans
  exact List.mergeSort_perm _ _

/-- The findings under a code that is about what names mean. -/
theorem under_perm (p : Program) (options : ValidatorOptions) {c : Code}
    {f : Env × Occurrence → Option Finding}
    (scoping : ∀ issue : Issue, issue.code = c → issue.isScoping)
    (h : ∀ o, (Occurrence.findings o).filter (·.issue.code = c) = (f o).toList) :
    ((validate p options).under c).Perm (p.occurrences.filterMap f) := by
  apply ((findings_perm p options).filter _).trans
  have first : (rawFindings p options).filter (·.issue.code = c)
      = (scopingFindings (rawFindings p options)).filter (·.issue.code = c) := by
    rw [scopingFindings, List.filter_filter]
    apply List.filter_congr
    intro f _
    by_cases code : f.issue.code = c
    · simp [code, scoping f.issue code]
    · simp [code]
  rw [first, scopingFindings_raw, List.filter_flatMap]
  apply List.Perm.of_eq
  induction p.occurrences with
  | nil => rfl
  | cons o os ih =>
    rw [List.flatMap_cons, List.filterMap_cons, h o, ih]
    cases f o <;> rfl

end ValidationResult

/-- Validation implements lexical scoping. The undefined variables that it finds are the names in
use that mean nothing at their place; the undeclared assignments are those, other than as a branch,
to names that mean nothing; and the reassignments are those to constants and to the results of
sessions. -/
theorem validate_scoping (p : Program) (options : ValidatorOptions) :
    ((validate p options).under .undefinedVariable).Perm
        (p.occurrences.filterMap Occurrence.undefined?)
      ∧ ((validate p options).under .undeclaredAssignment).Perm
        (p.occurrences.filterMap Occurrence.undeclared?)
      ∧ ((validate p options).under .constReassignment).Perm
        (p.occurrences.filterMap Occurrence.reassigned?) := by
  have named (issue : Issue) (c : Code)
      (h : c ∈ [.undefinedVariable, .undeclaredAssignment, .constReassignment]) :
      issue.code = c → issue.isScoping := by
    rintro rfl
    cases issue <;> first | rfl | simp [Issue.code] at h
  constructor
  · apply ValidationResult.under_perm p options fun i ↦ named i _ (by decide)
    simp [Occurrence.filter_findings]
  constructor
  · apply ValidationResult.under_perm p options fun i ↦ named i _ (by decide)
    simp [Occurrence.filter_findings]
  · apply ValidationResult.under_perm p options fun i ↦ named i _ (by decide)
    simp [Occurrence.filter_findings]

end ProseLang
