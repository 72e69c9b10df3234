import ProseLang.Canonical.Compilation
import ProseLang.Grammar.Parsing
import ProseLang.Proofs.Canonical.Nesting
import ProseLang.Proofs.Program.Leaves

/-!
# What a canonical text marks

The text of a program marks its leaves, with the text that stands for a leaf (`Leaf.printed?`), and
its constructs, which have parts. So a property of marks holds of all marks in the text of a program
if it holds of constructs and of the leaves of the program (`Leaf.GiveMarks`, `Program.doc_each`).
-/

namespace ProseLang

/-- The text that stands for a leaf in a canonical text, if the leaf is marked there. -/
def Leaf.printed? : Leaf → Option String
  | name x | key x | numeral x => some x.val
  | quoted x => some (StringLiteral.ofText x.val).raw
  | model x => some (if isPlainName x.val then x.val else (StringLiteral.ofText x.val).raw)
  | count n => some (toString n.val)
  | string s => some s.raw
  | discretion d => some d.raw
  | comment _ | keyword _ _ | operator _ | arrow _ => none

namespace Doc

/-- The text of a leaf. What has parts is a construct, and so are the braces of an empty object. -/
def leafText? : Doc → Option String
  | text s => if s = "\x7b\x7d" then none else some s
  | append _ _ | mark _ _ => none

/-- Whether a property of places and documents holds of every mark in a document. -/
def Each (P : Span → Doc → Prop) : Doc → Prop
  | text _ => True
  | append a b => a.Each P ∧ b.Each P
  | mark origin d => P origin d ∧ d.Each P

end Doc

/-- Whether a property of marks holds of constructs, and of the leaves with some property. -/
structure Leaf.GiveMarks (L : Leaf → Prop) (P : Span → Doc → Prop) : Prop where
  leaf : ∀ l, L l → ∀ text ∈ l.printed?, P l.span (.text text)
  construct : ∀ span (d : Doc), d.chars ≠ [] → d.leafText? = none → P span d

/-! ## Combinators -/

namespace Doc

/-- A text is written as it is. -/
@[simp] theorem chars_text (s : String) : (text s).chars = s.toList := rfl

/-- Documents one after the other are written one after the other. -/
@[simp] theorem chars_append (a b : Doc) : (a ++ b).chars = a.chars ++ b.chars := rfl

/-- A mark is not written. -/
@[simp] theorem chars_mark (origin : Span) (d : Doc) : (mark origin d).chars = d.chars := rfl

/-- A line break is written as a line feed. -/
@[simp] theorem chars_newline : newline.chars = ['\n'] := rfl

variable {P : Span → Doc → Prop}

private theorem each_ite {c : Prop} [Decidable c] {a b : Doc} (ha : a.Each P) (hb : b.Each P) :
    (if c then a else b).Each P := by
  split
  · exact ha
  · exact hb

private theorem each_optional {α : Type} {f : α → Doc} {x : Option α} (h : ∀ a ∈ x, (f a).Each P) :
    (optional f x).Each P := by
  cases x with
  | none => trivial
  | some a => exact h a rfl

private theorem each_commas {ds : List Doc} (h : ∀ d ∈ ds, d.Each P) : (commas ds).Each P := by
  induction ds with
  | nil => trivial
  | cons d ds ih =>
    obtain ⟨first, rest⟩ := List.forall_mem_cons.1 h
    cases ds with
    | nil => exact first
    | cons e ds => exact ⟨⟨first, trivial⟩, ih rest⟩

private theorem each_parenthesized {ds : List Doc} (h : ∀ d ∈ ds, d.Each P) :
    (parenthesized ds).Each P :=
  each_ite trivial ⟨⟨trivial, each_commas h⟩, trivial⟩

private theorem each_braced {ds : List Doc} (h : ∀ d ∈ ds, d.Each P) : (braced ds).Each P :=
  each_ite trivial ⟨⟨trivial, each_commas h⟩, trivial⟩

private theorem each_setting {α : Type} {key : String} {f : α → Doc} {x : Option α}
    (h : ∀ a ∈ x, (f a).Each P) : ∀ d ∈ setting key f x, d.Each P := by
  cases x with
  | none => exact fun d hd ↦ absurd hd List.not_mem_nil
  | some a => exact List.forall_mem_singleton.2 ⟨⟨trivial, trivial⟩, h a rfl⟩

private theorem braced_ne_nil (ds : List Doc) : (braced ds).chars ≠ [] := by
  rw [braced]
  split <;> simp

private theorem leafText?_braced (ds : List Doc) : (braced ds).leafText? = none := by
  rw [braced]
  split <;> rfl

end Doc

/-! ## Constructs have parts -/

/-- Also a pipe has text: what goes in ends its line or is followed by the end of one. -/
theorem Action.doc_ne_nil (i : Indent) : (a : Action) → (a.doc i).chars ≠ []
  | .session _ => by simp [Action.doc, Doc.session]
  | .doBlock _ => by simp [Action.doc]
  | .invoke _ => by simp [Action.doc]
  | .pipe ⟨input, _, _⟩ => by
    rw [Action.doc]
    cases ends : input.endsLine with
    | false => simp
    | true =>
      cases input with
      | action b =>
        have inner := b.doc_ne_nil i
        cases b with
        | pipe | doBlock => simp [Expr.doc, inner]
        | session | invoke => cases ends
      | _ => cases ends

private theorem Statement.doc_ne_nil (i : Indent) {s : Statement}
    (h : (Visit.statement s).IsWhole) : (s.doc i).chars ≠ [] := by
  cases s with
  | action a =>
    have inner := a.doc_ne_nil i
    cases a <;> simp [Statement.doc, inner]
  | conditional c =>
    obtain ⟨_ | ⟨b, branches⟩, otherwise, span⟩ := c
    · exact absurd rfl h
    · simp [Statement.doc, branchesDoc]
  | binding kind b =>
    cases kind <;> simp [Statement.doc, BindingKind.keyword, Keyword.text]
  | _ => simp [Statement.doc, Doc.parallelHeader, Doc.forEachHeader, Doc.loopHeader]

private theorem Action.leafText?_doc (i : Indent) (a : Action) : (a.doc i).leafText? = none := by
  cases a <;> rfl

private theorem Statement.leafText?_doc (i : Indent) (s : Statement) :
    (s.doc i).leafText? = none := by
  cases s with
  | action a => cases a <;> rfl
  | conditional c => rfl
  | _ => rfl

/-- Also a property with an empty key has text: something follows the key. -/
theorem PropertyValue.line_ne_nil (i : Indent) (key : Ident) (value : PropertyValue) :
    (Doc.ident key ++ value.lines i).chars ≠ [] := by
  cases value <;> simp [PropertyValue.lines]

/-! ## Leaves -/

section

-- the theorems of the mutual block share the hypothesis, and some need it for the others only
set_option linter.unusedSectionVars false

variable {L : Leaf → Prop} {P : Span → Doc → Prop} (marks : Leaf.GiveMarks L P)
include marks

namespace Doc

private theorem ident_each {x : Ident} (h : L (.name x) ∨ L (.key x) ∨ L (.numeral x)) :
    (ident x).Each P := by
  rcases h with h | h | h <;> exact ⟨marks.leaf _ h _ rfl, trivial⟩

private theorem name_each {x : Ident} (h : L (.name x)) :
    (ident x).Each P := ident_each marks (.inl h)

private theorem string_each {s : StringLit} (h : L (.string s)) : (string s).Each P :=
  ⟨marks.leaf _ h _ rfl, trivial⟩

private theorem discretion_each {d : Discretion} (h : L (.discretion d)) : (discretion d).Each P :=
  ⟨marks.leaf _ h _ rfl, trivial⟩

private theorem quoted_each {s : Located String} (h : L (.quoted s)) : (quoted s).Each P :=
  ⟨marks.leaf _ h _ rfl, trivial⟩

private theorem number_each {n : Located Nat} (h : L (.count n)) : (number n).Each P :=
  ⟨marks.leaf _ h _ rfl, trivial⟩

private theorem model_each {m : Ident} (h : L (.model m)) : (model m).Each P := by
  have text : P m.span (.text (if isPlainName m.val then m.val
      else (StringLiteral.ofText m.val).raw)) := marks.leaf _ h _ rfl
  rw [model]
  cases plain : isPlainName m.val with
  | true => exact ⟨by simpa [plain] using text, trivial⟩
  | false => exact ⟨by simpa [plain] using text, trivial⟩

private theorem quoteds_each {names : List Ident} (h : ∀ x ∈ names, L (.quoted x)) :
    ∀ d ∈ names.map quoted, d.Each P :=
  List.forall_mem_map.2 fun x hx ↦ quoted_each marks (h x hx)

private theorem names_each {names : List Ident} (h : ∀ x ∈ names, L (.name x)) :
    ∀ d ∈ names.map ident, d.Each P :=
  List.forall_mem_map.2 fun x hx ↦ name_each marks (h x hx)

private theorem skills_each {names : List Ident} (h : ∀ x ∈ names, L (.quoted x)) :
    (skills names).Each P :=
  ⟨⟨trivial, each_commas (quoteds_each marks h)⟩, trivial⟩

private theorem context_each {c : Context} (h : ∀ x ∈ c.names, L (.name x)) :
    (context c).Each P := by
  cases c with
  | implicit | empty => trivial
  | single name => exact name_each marks (h name List.mem_cons_self)
  | list names | object names => exact ⟨⟨trivial, each_commas (names_each marks h)⟩, trivial⟩

private theorem asBinding_each {b : Option AsBinding} (h : ∀ x ∈ b, x.Has L) :
    (asBinding b).Each P :=
  each_optional fun x hx ↦ ⟨trivial, name_each marks (h x hx).2⟩

private theorem session_each {s : Session} {others : List Doc} (h : s.Sets L)
    (hothers : ∀ d ∈ others, d.Each P) : (session s others).Each P := by
  refine ⟨marks.construct _ _ (by simp) rfl, ⟨⟨trivial, ?_⟩, trivial⟩, ?_⟩
  · exact each_optional fun x hx ↦ ⟨trivial, name_each marks (h.name x hx)⟩
  · have context : ∀ c ∈ (if s.context.isImplicit then none else some s.context),
        (Doc.context c).Each P := by
      split
      · exact fun c hc ↦ absurd hc (by simp)
      · rintro _ ⟨⟩
        exact context_each marks h.context
    apply each_braced
    simp only [List.forall_mem_append]
    refine ⟨⟨⟨⟨⟨⟨⟨?_, ?_⟩, ?_⟩, ?_⟩, ?_⟩, ?_⟩, ?_⟩, hothers⟩
    · exact each_setting fun x hx ↦ name_each marks (h.agent x hx)
    · exact each_setting fun x hx ↦ model_each marks (h.model x hx)
    · exact each_setting fun x hx ↦ string_each marks (h.prompt x hx)
    · exact each_setting fun xs hx ↦ skills_each marks (h.skills xs hx)
    · exact each_setting context
    · exact each_setting fun x hx ↦ number_each marks (h.retry x hx)
    · exact each_setting fun x hx ↦ quoted_each marks (h.backoff x hx)

private theorem parallelHeader_each {p : Parallel} (join : ∀ x ∈ p.join, L (.quoted x))
    (onFail : ∀ x ∈ p.onFail, L (.quoted x)) (count : ∀ x ∈ p.count, L (.count x)) :
    (parallelHeader p).Each P := by
  have modifiers : ∀ d ∈ (p.join.map quoted).toList ++ setting "on-fail" quoted p.onFail
      ++ setting "count" number p.count, d.Each P := by
    simp only [List.forall_mem_append]
    refine ⟨⟨?_, ?_⟩, ?_⟩
    · cases written : p.join with
      | none => exact fun d hd ↦ absurd hd List.not_mem_nil
      | some own => exact List.forall_mem_singleton.2 (quoted_each marks (join own written))
    · exact each_setting fun x hx ↦ quoted_each marks (onFail x hx)
    · exact each_setting fun x hx ↦ number_each marks (count x hx)
  exact ⟨⟨trivial, each_ite trivial ⟨trivial, each_parenthesized modifiers⟩⟩, trivial⟩

private theorem loopHeader_each {l : Loop} (maxIterations : ∀ x ∈ l.maxIterations, L (.count x))
    (index : ∀ b ∈ l.index, b.Has L) : (loopHeader l).Each P := by
  refine ⟨⟨⟨⟨trivial, ?_⟩, asBinding_each marks index⟩, ?_⟩, trivial⟩
  · exact each_optional fun _ _ ↦ ⟨⟨⟨trivial, trivial⟩, trivial⟩, trivial⟩
  · exact each_optional fun n hn ↦ ⟨⟨trivial, number_each marks (maxIterations n hn)⟩, trivial⟩

private theorem forEachHeader_each {f : ForEach} {collection : Doc} (item : L (.name f.item))
    (index : ∀ x ∈ f.index, L (.name x)) (hcollection : collection.Each P) :
    (forEachHeader f collection).Each P := by
  refine ⟨⟨⟨⟨⟨trivial, name_each marks item⟩, ?_⟩, trivial⟩, hcollection⟩, trivial⟩
  exact each_optional fun x hx ↦ ⟨trivial, name_each marks (index x hx)⟩

private theorem operationHeader_each {o : Operation} (item : ∀ x ∈ o.item, L (.name x))
    (accumulator : ∀ x ∈ o.accumulator, L (.name x)) : (operationHeader o).Each P := by
  refine ⟨⟨⟨trivial, trivial⟩, each_parenthesized ?_⟩, trivial⟩
  split
  · next a x ha hx =>
    have first := name_each marks (accumulator a ha)
    have second := name_each marks (item x hx)
    exact List.forall_mem_cons.2 ⟨first, List.forall_mem_singleton.2 second⟩
  · next x _ hx => exact List.forall_mem_singleton.2 (name_each marks (item x hx))
  · exact fun d hd ↦ absurd hd List.not_mem_nil

end Doc

/-! ## Constructs -/

mutual

/-- What holds of every mark in the text of a statement. -/
theorem Statement.doc_each (i : Indent) : (s : Statement) → s.Has L → (s.doc i).Each P
  | .comment _, _ => ⟨trivial, trivial⟩
  | .importSkill m, h => by
    obtain ⟨-, skill, source⟩ := has_importSkill.1 h
    exact ⟨⟨⟨⟨trivial, Doc.string_each marks skill⟩, trivial⟩, Doc.string_each marks source⟩,
      trivial⟩
  | .agent ⟨name, model, prompt, skills, permissions, properties, _, _⟩, h => by
    have h := has_agent.1 h
    refine ⟨⟨⟨⟨⟨⟨⟨trivial, Doc.name_each marks h.name⟩, trivial⟩, ?_⟩, ?_⟩, ?_⟩, ?_⟩, ?_⟩
    · exact Doc.each_optional fun m hm ↦
        ⟨⟨⟨⟨trivial, trivial⟩, trivial⟩, Doc.model_each marks (h.model m hm)⟩, trivial⟩
    · exact Doc.each_optional fun p hp ↦
        ⟨⟨⟨⟨trivial, trivial⟩, trivial⟩, Doc.string_each marks (h.prompt p hp)⟩, trivial⟩
    · exact Doc.each_ite trivial
        ⟨⟨⟨⟨trivial, trivial⟩, trivial⟩, Doc.skills_each marks h.skills⟩, trivial⟩
    · exact permissionsDoc_each i.deeper permissions h.permissions
    · exact propertyLines_each i.deeper properties h.properties
  | .block ⟨_, _, body, _⟩, h => by
    obtain ⟨⟨name, params⟩, hbody⟩ := has_block.1 h
    have params := Doc.each_parenthesized (Doc.names_each marks params)
    exact ⟨⟨⟨⟨trivial, Doc.name_each marks name⟩, params⟩, trivial⟩,
      bodyDoc_each i.deeper body hbody⟩
  | .binding _ ⟨_, value, _⟩, h => by
    obtain ⟨name, hvalue⟩ := has_binding.1 h
    exact ⟨⟨⟨⟨⟨trivial, trivial⟩, Doc.name_each marks name⟩, trivial⟩, value.doc_each i hvalue⟩,
      Doc.each_ite trivial trivial⟩
  | .assignment ⟨_, value, _⟩, h => by
    obtain ⟨name, hvalue⟩ := has_assignment.1 h
    exact ⟨⟨⟨Doc.name_each marks name, trivial⟩, value.doc_each i hvalue⟩,
      Doc.each_ite trivial trivial⟩
  | .action a, h => by
    have inner := a.doc_each i (has_statement_action.1 h)
    cases a with
    | session | invoke => exact ⟨inner, trivial⟩
    | pipe | doBlock => exact inner
  | .parallel ⟨_, _, _, _, body, _⟩, h => by
    obtain ⟨⟨join, onFail, count, -⟩, hbody⟩ := has_parallel.1 h
    exact ⟨Doc.parallelHeader_each marks join onFail count, bodyDoc_each i.deeper body hbody⟩
  | .repeated ⟨_, _, body, _⟩, h => by
    obtain ⟨⟨-, index⟩, hbody⟩ := has_repeated.1 h
    exact ⟨⟨⟨⟨trivial, trivial⟩, Doc.asBinding_each marks index⟩, trivial⟩,
      bodyDoc_each i.deeper body hbody⟩
  | .forEach ⟨_, _, collection, _, _, _, body, _⟩, h => by
    obtain ⟨⟨-, -, item, index⟩, hcollection, hbody⟩ := has_forEach.1 h
    exact ⟨Doc.forEachHeader_each marks item index (collection.doc_each i hcollection),
      bodyDoc_each i.deeper body hbody⟩
  | .loop ⟨_, _, _, _, body, _⟩, h => by
    obtain ⟨-, ⟨maxIterations, index, -⟩, hbody⟩ := has_loop.1 h
    exact ⟨Doc.loopHeader_each marks maxIterations index, bodyDoc_each i.deeper body hbody⟩
  | .attempt ⟨body, handler, cleanup, _⟩, h => by
    obtain ⟨error, hbody, handled, cleaned⟩ := has_attempt.1 h
    exact ⟨⟨⟨trivial, bodyDoc_each i.deeper body hbody⟩, handlerDoc_each i handler error handled⟩,
      cleanupDoc_each i cleanup cleaned⟩
  | .throw _, h =>
    have message := has_throw.1 h
    ⟨⟨trivial, Doc.each_optional fun m hm ↦ ⟨trivial, Doc.string_each marks (message m hm)⟩⟩,
      trivial⟩
  | .choice ⟨_, options, _⟩, h =>
    ⟨⟨⟨trivial, trivial⟩, trivial⟩, optionsDoc_each i.deeper options (has_choice.1 h).2⟩
  | .conditional ⟨branches, otherwise, _⟩, h => by
    obtain ⟨-, hbranches, hotherwise⟩ := has_conditional.1 h
    have lead : (Doc.text "if ").Each P := trivial
    exact ⟨branchesDoc_each i lead branches hbranches, otherwiseDoc_each i otherwise hotherwise⟩

/-- What holds of every mark in the lines of a body. -/
theorem bodyDoc_each (i : Indent) : (body : List Statement) → BodyHas L body →
    (bodyDoc i body).Each P
  | [], _ => trivial
  | s :: body, h => by
    obtain ⟨first, rest⟩ := List.forall_mem_cons.1 h
    have whole := marks.construct s.span _ (s.doc_ne_nil i first.1.2) (s.leafText?_doc i)
    exact ⟨⟨trivial, whole, s.doc_each i first⟩, bodyDoc_each i body rest⟩

private theorem handlerDoc_each (i : Indent) :
    (handler : Option Handler) → (∀ h ∈ handler, ∀ b ∈ h.error, b.Has L) →
      (∀ h ∈ handler, BodyHas L h.body) → (handlerDoc i handler).Each P
  | none, _, _ => trivial
  | some ⟨error, body, span⟩, bound, handled => by
    have bound := bound ⟨error, body, span⟩ rfl
    have whole := marks.construct span (Doc.text "catch" ++ Doc.asBinding error ++ Doc.text ":\n"
      ++ bodyDoc i.deeper body) (by simp) rfl
    refine ⟨trivial, whole, ⟨⟨trivial, Doc.asBinding_each marks bound⟩, trivial⟩, ?_⟩
    exact bodyDoc_each i.deeper body (handled _ rfl)

private theorem cleanupDoc_each (i : Indent) :
    (cleanup : Option Body) → (∀ c ∈ cleanup, BodyHas L c.body) → (cleanupDoc i cleanup).Each P
  | none, _ => trivial
  | some ⟨body, span⟩, h => by
    have whole := marks.construct span (Doc.text "finally:\n" ++ bodyDoc i.deeper body)
      (by simp) rfl
    exact ⟨trivial, whole, trivial, bodyDoc_each i.deeper body (h _ rfl)⟩

private theorem otherwiseDoc_each (i : Indent) :
    (otherwise : Option Body) → (∀ c ∈ otherwise, BodyHas L c.body) →
      (otherwiseDoc i otherwise).Each P
  | none, _ => trivial
  | some ⟨body, _⟩, h => ⟨⟨trivial, trivial⟩, bodyDoc_each i.deeper body (h _ rfl)⟩

private theorem optionsDoc_each (i : Indent) :
    (options : List ChoiceOption) →
      (∀ o ∈ options, L (.string o.label) ∧ BodyHas L o.body) → (optionsDoc i options).Each P
  | [], _ => trivial
  | ⟨label, body, span⟩ :: options, h => by
    obtain ⟨⟨hlabel, first⟩, rest⟩ := List.forall_mem_cons.1 h
    have whole := marks.construct span (Doc.text "option " ++ Doc.string label ++ Doc.text ":\n"
      ++ bodyDoc i.deeper body) (by simp) rfl
    refine ⟨⟨trivial, whole, ?_⟩, optionsDoc_each i options rest⟩
    exact ⟨⟨⟨trivial, Doc.string_each marks hlabel⟩, trivial⟩, bodyDoc_each i.deeper body first⟩

private theorem branchesDoc_each (i : Indent) {lead : Doc} (hlead : lead.Each P) :
    (branches : List Branch) →
      (∀ b ∈ branches, L (.discretion b.condition) ∧ BodyHas L b.body) →
      (branchesDoc i lead branches).Each P
  | [], _ => trivial
  | ⟨_, _, body, _⟩ :: branches, h => by
    obtain ⟨⟨-, first⟩, rest⟩ := List.forall_mem_cons.1 h
    have next : (i.doc ++ Doc.text "elif ").Each P := ⟨trivial, trivial⟩
    exact ⟨⟨⟨⟨hlead, trivial⟩, trivial⟩, bodyDoc_each i.deeper body first⟩,
      branchesDoc_each i next branches rest⟩

/-- What holds of every mark in the text of an action. -/
theorem Action.doc_each (i : Indent) : (a : Action) → a.Has L → (a.doc i).Each P
  | .session ⟨_, _, _, _, _, _, _, _, properties, _, _, _⟩, h => by
    have h := has_session.1 h
    exact Doc.session_each marks { h with } (inlineProperties_each i properties h.properties)
  | .pipe ⟨input, operations, _⟩, h => by
    obtain ⟨hinput, hoperations⟩ := has_pipe.1 h
    exact ⟨⟨input.doc_each i hinput, Doc.each_ite trivial trivial⟩,
      operationsDoc_each i.deeper operations hoperations⟩
  | .doBlock ⟨body, _⟩, h => ⟨trivial, bodyDoc_each i.deeper body (has_doBlock.1 h)⟩
  | .invoke ⟨_, args, _⟩, h => by
    obtain ⟨name, hargs⟩ := has_invoke.1 h
    exact ⟨⟨trivial, Doc.name_each marks name⟩,
      Doc.each_parenthesized (valueDocs_each i args hargs)⟩

private theorem operationsDoc_each (i : Indent) :
    (operations : List Operation) → (∀ o ∈ operations, o.Has L) →
      (operationsDoc i operations).Each P
  | [], _ => trivial
  | ⟨operator, item, accumulator, body, span⟩ :: operations, h => by
    obtain ⟨first, rest⟩ := List.forall_mem_cons.1 h
    obtain ⟨⟨-, hitem, haccumulator⟩, hbody⟩ := has_operation.1 first
    have whole := marks.construct span (Doc.operationHeader ⟨operator, item, accumulator, [], span⟩
      ++ bodyDoc i.deeper body) (by simp [Doc.operationHeader]) rfl
    refine ⟨⟨trivial, whole, ?_, ?_⟩, operationsDoc_each i operations rest⟩
    · exact Doc.operationHeader_each marks hitem haccumulator
    · exact bodyDoc_each i.deeper body hbody

/-- What holds of every mark in the text of a value. -/
theorem Expr.doc_each (i : Indent) : (e : Expr) → e.Has L → (e.doc i).Each P
  | .action a, h => by
    have inner := a.doc_each i (has_expr_action.1 h)
    have whole := marks.construct a.span (a.doc i) (a.doc_ne_nil i) (a.leafText?_doc i)
    cases a with
    | session => exact inner
    | pipe | doBlock | invoke => exact ⟨whole, inner⟩
  | .string _, h => Doc.string_each marks (has_expr_string.1 h)
  | .number _, h => Doc.ident_each marks (.inr (.inr (has_expr_number.1 h)))
  | .ident _, h => Doc.name_each marks (has_expr_ident.1 h)
  | .array ⟨items, span⟩, h => by
    have hitems := valueDocs_each i items (has_expr_array.1 h)
    have whole := marks.construct span (Doc.text "[" ++ Doc.commas (valueDocs i items)
      ++ Doc.text "]") (by simp) rfl
    exact ⟨whole, ⟨trivial, Doc.each_commas hitems⟩, trivial⟩
  | .object ⟨entries, span⟩, h => by
    have hentries := entryDocs_each i entries (has_expr_object.1 h)
    have whole := marks.construct span _ (Doc.braced_ne_nil (entryDocs i entries))
      (Doc.leafText?_braced _)
    exact ⟨whole, Doc.each_braced hentries⟩
  | .discretion _, h => Doc.discretion_each marks (has_expr_discretion.1 h)

private theorem valueDocs_each (i : Indent) :
    (es : List Expr) → (∀ e ∈ es, e.Has L) → ∀ d ∈ valueDocs i es, d.Each P
  | [], _ => nofun
  | e :: es, h => by
    obtain ⟨first, rest⟩ := List.forall_mem_cons.1 h
    exact List.forall_mem_cons.2 ⟨e.doc_each i first, valueDocs_each i es rest⟩

private theorem entryDocs_each (i : Indent) :
    (es : List Entry) → (∀ e ∈ es, e.Has L) → ∀ d ∈ entryDocs i es, d.Each P
  | [], _ => nofun
  | ⟨key, some value⟩ :: es, h => by
    obtain ⟨⟨hkey, hvalue⟩, rest⟩ := List.forall_mem_cons.1 h
    have value := value.doc_each i (hvalue value rfl)
    exact List.forall_mem_cons.2
      ⟨⟨⟨Doc.name_each marks hkey, trivial⟩, value⟩, entryDocs_each i es rest⟩
  | ⟨key, none⟩ :: es, h => by
    obtain ⟨⟨hkey, -⟩, rest⟩ := List.forall_mem_cons.1 h
    exact List.forall_mem_cons.2 ⟨Doc.name_each marks hkey, entryDocs_each i es rest⟩

private theorem permissionsDoc_each (i : Indent) :
    (permissions : Option (List Property)) → (∀ group ∈ permissions, ∀ p ∈ group, p.Has L) →
      (permissionsDoc i permissions).Each P
  | none, _ => trivial
  | some properties, h =>
    ⟨⟨trivial, trivial⟩, propertyLines_each i.deeper properties (h properties rfl)⟩

private theorem propertyLines_each (i : Indent) :
    (properties : List Property) → (∀ p ∈ properties, p.Has L) → (propertyLines i properties).Each P
  | [], _ => trivial
  | ⟨key, value, span⟩ :: properties, h => by
    obtain ⟨⟨hkey, hvalue⟩, rest⟩ := List.forall_mem_cons.1 h
    have whole := marks.construct span (Doc.ident key ++ value.lines i)
      (value.line_ne_nil i key) rfl
    exact ⟨⟨trivial, whole, Doc.ident_each marks (.inr (.inl hkey)), value.lines_each i hvalue⟩,
      propertyLines_each i properties rest⟩

private theorem PropertyValue.lines_each (i : Indent) :
    (value : PropertyValue) → value.Has L → (value.lines i).Each P
  | .expr e, h =>
    ⟨⟨trivial, e.doc_each i (has_property_expr.1 h)⟩, Doc.each_ite trivial trivial⟩
  | .context _, h => ⟨⟨trivial, Doc.context_each marks (has_property_context.1 h)⟩, trivial⟩
  | .nested properties, h =>
    ⟨trivial, propertyLines_each i.deeper properties (has_property_nested.1 h)⟩

private theorem inlineProperties_each (i : Indent) :
    (properties : List Property) → (∀ p ∈ properties, p.Has L) →
      ∀ d ∈ inlineProperties i properties, d.Each P
  | [], _ => nofun
  | ⟨key, value, _⟩ :: properties, h => by
    obtain ⟨⟨hkey, hvalue⟩, rest⟩ := List.forall_mem_cons.1 h
    have key := Doc.ident_each marks (.inr (.inl hkey))
    exact List.forall_mem_cons.2 ⟨⟨⟨key, trivial⟩, value.inline_each i hvalue⟩,
      inlineProperties_each i properties rest⟩

private theorem PropertyValue.inline_each (i : Indent) :
    (value : PropertyValue) → value.Has L → (value.inline i).Each P
  | .expr e, h => e.doc_each i (has_property_expr.1 h)
  | .context _, h => Doc.context_each marks (has_property_context.1 h)
  | .nested properties, h => by
    have hproperties := inlineProperties_each i properties (has_property_nested.1 h)
    exact ⟨⟨trivial, Doc.each_commas hproperties⟩, trivial⟩

end

end

end ProseLang
