import ProseLang.Proofs.Canonical.CommentFree
import ProseLang.Proofs.Canonical.LeafEntries
import ProseLang.Proofs.Grammar.LineEndings
import ProseLang.Proofs.Token.Code

/-!
# Canonical texts without comments

What is written for a program without comments has no comments either: every construct ends with
characters that close the literals in it (`Doc.IsClosed`, `isClosed_bodyDoc`), and a value may come
before everything that closes it (`Doc.IsCode`). Main statement: compiling leaves out the comments
of a program, except for those that stand in collections of loops and in settings
(`compile_comments`, `comment_left_in_collection`).
-/

namespace ProseLang

/-- Whether what is printed for a leaf is no comment and starts none in what follows. -/
def Leaf.PrintsCode : Leaf → Prop
  | name x | key x | numeral x => ∀ c ∈ x.val.toList, isPlain c = true
  | string s => KeepsCode s.raw.toList
  | discretion d => KeepsCode d.raw.toList
  | comment _ => False
  | l => l.IsSpelled

namespace Doc

/-- Whether a document is made of plain characters. -/
def IsPlain (d : Doc) : Prop := ∀ c ∈ d.chars, isPlain c = true

/-- Whether a document may come before every text without comments. -/
def IsClosed (d : Doc) : Prop := ∀ rest, ProseLang.IsCode rest → ProseLang.IsCode (d.chars ++ rest)

/-- Whether a document may come before every text without comments that closes it. -/
def IsCode (d : Doc) : Prop := KeepsCode d.chars

/-- Whether a document closes what stands before it, or leaves that to what follows. -/
def Closes (d : Doc) : Prop := ∀ rest, ClosesLiterals rest → ClosesLiterals (d.chars ++ rest)

variable {a b d : Doc}

private theorem IsPlain.text {s : String} (h : s.toList.all isPlain = true) : (text s).IsPlain :=
  List.all_eq_true.1 h

private theorem IsPlain.append (ha : a.IsPlain) (hb : b.IsPlain) : (a ++ b).IsPlain :=
  List.forall_mem_append.2 ⟨ha, hb⟩

private theorem IsPlain.isClosed (h : d.IsPlain) :
    d.IsClosed := fun rest ↦ (isCode_plain_append h rest).2

private theorem closesLiterals_cons {c : Char} (h : isPlain c = true) (rest : List Char) :
    ClosesLiterals (c :: rest) := by
  constructor <;> · rintro ⟨⟩; cases h

private theorem IsPlain.closes (h : d.IsPlain) : d.Closes := by
  intro rest closes
  cases chars : d.chars with
  | nil => exact closes
  | cons c more => exact closesLiterals_cons (h c (by simp [chars])) _

private theorem IsClosed.empty : Doc.empty.IsClosed := fun _ ↦ id

private theorem IsClosed.isCode (h : d.IsClosed) : d.IsCode := fun rest _ ↦ h rest

private theorem IsClosed.append (ha : a.IsClosed) (hb : b.IsClosed) : (a ++ b).IsClosed := by
  intro rest others
  rw [chars_append, List.append_assoc]
  exact ha _ (hb rest others)

/-- After what is closed there may be anything. -/
theorem IsClosed.before (ha : a.IsClosed) (hb : b.IsCode) : (a ++ b).IsCode := by
  intro rest closes others
  rw [chars_append, List.append_assoc]
  exact ha _ (hb rest closes others)

/-- What comes after a value has to close it. -/
theorem IsCode.append (ha : a.IsCode) (hb : b.IsCode) (closes : b.Closes) : (a ++ b).IsCode := by
  intro rest hrest others
  rw [chars_append, List.append_assoc]
  exact ha _ (closes rest hrest) (hb rest hrest others)

/-- Plain characters close a value. -/
theorem IsCode.close (ha : a.IsCode) {s : String} (plain : s.toList.all isPlain = true)
    (nonempty : s.toList ≠ []) : (a ++ text s).IsClosed := by
  intro rest others
  have plain := IsPlain.text plain
  rw [chars_append, List.append_assoc]
  refine ha _ ?_ (plain.isClosed rest others)
  obtain ⟨c, more, hs⟩ := List.exists_cons_of_ne_nil nonempty
  rw [chars_text, hs]
  exact closesLiterals_cons (plain c (by simp [hs])) _

private theorem IsClosed.ite {c : Prop} [Decidable c] (ha : a.IsClosed) (hb : b.IsClosed) :
    (if c then a else b).IsClosed := by
  split
  · exact ha
  · exact hb

private theorem IsClosed.optional {α : Type} {f : α → Doc} {x : Option α}
    (h : ∀ a ∈ x, (f a).IsClosed) : (Doc.optional f x).IsClosed := by
  cases x with
  | none => exact .empty
  | some a => exact h a rfl

private theorem isCode_commas {ds : List Doc} (h : ∀ d ∈ ds, d.IsCode) : (commas ds).IsCode := by
  induction ds with
  | nil => exact fun _ _ ↦ id
  | cons d ds ih =>
    obtain ⟨first, rest⟩ := List.forall_mem_cons.1 h
    cases ds with
    | nil => exact first
    | cons e ds => exact (first.close rfl (by decide)).before (ih rest)

private theorem isClosed_parenthesized {ds : List Doc} (h : ∀ d ∈ ds, d.IsCode) :
    (parenthesized ds).IsClosed :=
  .ite .empty
    (((IsPlain.text rfl).isClosed.before (isCode_commas h)).close rfl (by decide))

private theorem isClosed_braced {ds : List Doc} (h : ∀ d ∈ ds, d.IsCode) : (braced ds).IsClosed :=
  .ite (IsPlain.text rfl).isClosed
    (((IsPlain.text rfl).isClosed.before (isCode_commas h)).close rfl (by decide))

private theorem isCode_setting {α : Type} {key : String} {f : α → Doc} {x : Option α}
    (plain : key.toList.all isPlain = true) (h : ∀ a ∈ x, (f a).IsCode) :
    ∀ d ∈ setting key f x, d.IsCode := by
  cases x with
  | none => exact fun d hd ↦ absurd hd List.not_mem_nil
  | some a =>
    have lead := (IsPlain.text plain).append (.text (s := ": ") rfl)
    exact List.forall_mem_singleton.2 (lead.isClosed.before (h a rfl))

/-! ## Leaves -/

private theorem isPlain_ident {x : Ident} (h : Leaf.PrintsCode (.name x)) : (ident x).IsPlain := h

private theorem isCode_string {s : StringLit} (h : Leaf.PrintsCode (.string s)) :
    (string s).IsCode := h

private theorem isCode_quoted {s : Located String} (h : Leaf.PrintsCode (.quoted s)) :
    (quoted s).IsCode :=
  keepsCode_ofText h

private theorem isPlain_toString (n : Nat) : ∀ c ∈ (toString n).toList, isPlain c = true := by
  intro c hc
  simp only [Nat.toString_eq_repr, Nat.toList_repr] at hc
  exact isPlain_of_isDigit (Nat.isDigit_of_mem_toDigits (by decide) (by decide) hc)

private theorem isPlain_number (n : Located Nat) : (number n).IsPlain := isPlain_toString n.val

private theorem isPlain_of_isPlainName {name : String} (h : isPlainName name = true) :
    ∀ c ∈ name.toList, isPlain c = true := by
  have joined (parts : List (List Char)) (h : parts.all (fun part ↦ part.all isNameChar) = true) :
      ∀ c ∈ List.intercalate ['-'] parts, isPlain c = true := by
    induction parts with
    | nil => exact nofun
    | cons part parts ih =>
      obtain ⟨first, rest⟩ := List.forall_mem_cons.1 (List.all_eq_true.1 h)
      have here : ∀ c ∈ part, isPlain c = true :=
        fun c hc ↦ isPlain_of_isNameChar (List.all_eq_true.1 first c hc)
      cases parts with
      | nil => simpa using here
      | cons next parts =>
        rw [List.intercalate_cons_cons, List.append_assoc]
        have dash : ∀ c ∈ ['-'], isPlain c = true := List.forall_mem_singleton.2 rfl
        have later := ih (List.all_eq_true.2 rest)
        exact List.forall_mem_append.2 ⟨here, List.forall_mem_append.2 ⟨dash, later⟩⟩
  have parts : (splitAtChar '-' name.toList).all (fun part ↦ part.all isNameChar) = true := by
    simp only [isPlainName, Bool.and_eq_true, List.all_eq_true] at h ⊢
    exact fun part hpart ↦ (h.1.2 part hpart).2
  have all := joined _ parts
  rwa [intercalate_splitAtChar] at all

private theorem isCode_model {m : Ident} (h : Leaf.PrintsCode (.model m)) : (model m).IsCode := by
  rw [model]
  split
  · next plain =>
    have plain : (ident m).IsPlain := isPlain_of_isPlainName plain
    exact plain.isClosed.isCode
  · next plain => exact isCode_quoted (h.resolve_left plain)

private theorem isCode_quoteds {names : List Ident} (h : ∀ x ∈ names, Leaf.PrintsCode (.quoted x)) :
    ∀ d ∈ names.map quoted, d.IsCode :=
  List.forall_mem_map.2 fun x hx ↦ isCode_quoted (h x hx)

private theorem isCode_names {names : List Ident} (h : ∀ x ∈ names, Leaf.PrintsCode (.name x)) :
    ∀ d ∈ names.map ident, d.IsCode :=
  List.forall_mem_map.2 fun x hx ↦ (isPlain_ident (h x hx)).isClosed.isCode

private theorem isClosed_skills {names : List Ident}
    (h : ∀ x ∈ names, Leaf.PrintsCode (.quoted x)) : (skills names).IsClosed :=
  ((IsPlain.text rfl).isClosed.before (isCode_commas (isCode_quoteds h))).close rfl (by decide)

private theorem isClosed_context {c : Context} (h : ∀ x ∈ c.names, Leaf.PrintsCode (.name x)) :
    (context c).IsClosed := by
  cases c with
  | implicit => exact .empty
  | empty => exact (IsPlain.text rfl).isClosed
  | single name => exact (isPlain_ident (h name List.mem_cons_self)).isClosed
  | list names | object names =>
    exact ((IsPlain.text rfl).isClosed.before (isCode_commas (isCode_names h))).close rfl
      (by decide)

private theorem isPlain_asBinding {b : Option AsBinding} (h : ∀ x ∈ b, x.Has Leaf.PrintsCode) :
    (asBinding b).IsPlain := by
  cases b with
  | none => exact nofun
  | some b => exact (IsPlain.text rfl).append (isPlain_ident (h b rfl).2)

private theorem isClosed_session {s : Session} {others : List Doc} (h : s.Sets Leaf.PrintsCode)
    (hothers : ∀ d ∈ others, d.IsCode) : (session s others).IsClosed := by
  have settings : (braced (setting "agent" ident s.agent ++ setting "model" model s.model
      ++ setting "prompt" string s.prompt ++ setting "skills" skills s.skills
      ++ setting "context" context (if s.context.isImplicit then none else some s.context)
      ++ setting "retry" number s.retry ++ setting "backoff" quoted s.backoff ++
        others)).IsClosed := by
    apply isClosed_braced
    simp only [List.forall_mem_append]
    refine ⟨⟨⟨⟨⟨⟨⟨?_, ?_⟩, ?_⟩, ?_⟩, ?_⟩, ?_⟩, ?_⟩, hothers⟩
    · exact isCode_setting rfl fun x hx ↦ (isPlain_ident (h.agent x hx)).isClosed.isCode
    · exact isCode_setting rfl fun x hx ↦ isCode_model (h.model x hx)
    · exact isCode_setting rfl fun x hx ↦ isCode_string (h.prompt x hx)
    · exact isCode_setting rfl fun xs hx ↦ (isClosed_skills (h.skills xs hx)).isCode
    · refine isCode_setting rfl fun c hc ↦ (isClosed_context ?_).isCode
      split at hc
      · cases hc
      · obtain rfl := Option.some.inj hc
        exact h.context
    · exact isCode_setting rfl fun x _ ↦ (isPlain_number x).isClosed.isCode
    · exact isCode_setting rfl fun x hx ↦ isCode_quoted (h.backoff x hx)
  have named : (optional (fun name ↦ text " " ++ ident name) s.name).IsClosed :=
    .optional fun x hx ↦ ((IsPlain.text rfl).append (isPlain_ident (h.name x hx))).isClosed
  have lead := (IsPlain.text (s := "session") rfl).isClosed.append named
  exact (lead.append (IsPlain.text rfl).isClosed).append settings

private theorem isClosed_parallelHeader {p : Parallel}
    (join : ∀ x ∈ p.join, Leaf.PrintsCode (.quoted x))
    (onFail : ∀ x ∈ p.onFail, Leaf.PrintsCode (.quoted x)) : (parallelHeader p).IsClosed := by
  have modifiers : ∀ d ∈ (p.join.map quoted).toList ++ setting "on-fail" quoted p.onFail
      ++ setting "count" number p.count, d.IsCode := by
    simp only [List.forall_mem_append]
    refine ⟨⟨?_, ?_⟩, ?_⟩
    · cases written : p.join with
      | none => exact fun d hd ↦ absurd hd List.not_mem_nil
      | some own => exact List.forall_mem_singleton.2 (isCode_quoted (join own written))
    · exact isCode_setting rfl fun x hx ↦ isCode_quoted (onFail x hx)
    · exact isCode_setting rfl fun x _ ↦ (isPlain_number x).isClosed.isCode
  have inner := (IsPlain.text (s := " ") rfl).isClosed.append (isClosed_parenthesized modifiers)
  exact ((IsPlain.text rfl).isClosed.append (.ite .empty inner)).append (IsPlain.text rfl).isClosed

private theorem isClosed_loopHeader {l : Loop}
    (condition : ∀ c ∈ l.condition, Leaf.PrintsCode (.discretion c.discretion))
    (index : ∀ b ∈ l.index, b.Has Leaf.PrintsCode) : (loopHeader l).IsClosed := by
  have limit : (optional (fun n ↦ text " (max: " ++ number n ++ text ")")
    l.maxIterations).IsPlain := by
    cases l.maxIterations with
    | none => exact nofun
    | some n => exact ((IsPlain.text rfl).append (isPlain_number n)).append (.text rfl)
  have words : (optional (fun c ↦ text " " ++ text c.kind.keyword.text ++ text " "
      ++ text c.discretion.raw) l.condition).IsCode := by
    cases written : l.condition with
    | none => exact fun _ _ ↦ id
    | some c =>
      have word : (text c.kind.keyword.text).IsPlain := isPlain_of_keyword c.kind.keyword
      exact (((IsPlain.text rfl).append word).append (.text rfl)).isClosed.before
        (condition c written)
  have named := isPlain_asBinding index
  have header := ((IsPlain.text (s := "loop") rfl).isClosed.before words).append
    named.isClosed.isCode
    named.closes
  exact (header.append limit.isClosed.isCode limit.closes).close rfl (by decide)

private theorem isClosed_forEachHeader {f : ForEach} {collection : Doc}
    (item : Leaf.PrintsCode (.name f.item))
    (index : ∀ x ∈ f.index, Leaf.PrintsCode (.name x)) (hcollection : collection.IsCode) :
    (forEachHeader f collection).IsClosed := by
  have lead : (text (if f.isParallel then "parallel for " else "for ")).IsPlain := by
    split <;> exact .text rfl
  have second : (optional (fun index ↦ text ", " ++ ident index) f.index).IsClosed :=
    .optional fun x hx ↦ ((IsPlain.text rfl).append (isPlain_ident (index x hx))).isClosed
  have names := ((lead.append (isPlain_ident item)).isClosed.append second).append
    (IsPlain.text (s := " in ") rfl).isClosed
  exact (names.before hcollection).close rfl (by decide)

private theorem isClosed_operationHeader {o : Operation}
    (item : ∀ x ∈ o.item, Leaf.PrintsCode (.name x))
    (accumulator : ∀ x ∈ o.accumulator, Leaf.PrintsCode (.name x)) :
    (operationHeader o).IsClosed := by
  have operator : (text o.operator.val.text).IsPlain := by
    cases o.operator.val <;> exact .text rfl
  refine (((IsPlain.text rfl).append operator).isClosed.append (isClosed_parenthesized ?_)).append
    (IsPlain.text rfl).isClosed
  split
  · next a x ha hx =>
    have first := (isPlain_ident (accumulator a ha)).isClosed.isCode
    have second := (isPlain_ident (item x hx)).isClosed.isCode
    exact List.forall_mem_cons.2 ⟨first, List.forall_mem_singleton.2 second⟩
  · next x _ hx => exact List.forall_mem_singleton.2 (isPlain_ident (item x hx)).isClosed.isCode
  · exact fun d hd ↦ absurd hd List.not_mem_nil

/-- The spaces at the start of a line. -/
theorem isPlain_indent (i : Indent) : i.doc.IsPlain := by
  intro c hc
  have all : i.doc.chars = List.replicate (i.level * i.unit) ' ' := String.toList_ofList
  rw [all] at hc
  rw [List.eq_of_mem_replicate hc]
  rfl

/-- A value with the end of its line, which some values have themselves. -/
theorem isClosed_line {d : Doc} {endsLine : Bool} (h : d.IsCode)
    (closed : endsLine = true → d.IsClosed) :
    (d ++ if endsLine then Doc.empty else newline).IsClosed := by
  cases endsLine with
  | true => exact (closed rfl).append .empty
  | false => exact h.close rfl (by decide)

end Doc

/-! ## Constructs -/

open Doc

/-- A text without characters that start a comment or a literal. -/
theorem isClosed_text {s : String} (h : s.toList.all isPlain = true) : (text s).IsClosed :=
  (IsPlain.text h).isClosed

/-- A setting on a line of its own. -/
theorem isClosed_settingLine (i : Indent) {key : String} {value : Doc}
    (plain : key.toList.all isPlain = true) (hvalue : value.IsCode) :
    (i.deeper.doc ++ text key ++ text ": " ++ value ++ newline).IsClosed :=
  have lead := ((isPlain_indent i.deeper).append (.text plain)).append (.text rfl)
  (lead.isClosed.before hvalue).close rfl (by decide)

/-- An error with or without a message. -/
theorem isClosed_throw (i : Indent) {t : Throw}
    (written : ∀ m ∈ t.message, Leaf.PrintsCode (.string m)) :
    ((Statement.throw t).doc i).IsClosed := by
  obtain ⟨message, span⟩ := t
  cases message with
  | none => exact ((isClosed_text rfl).append .empty).append (isClosed_text rfl)
  | some m =>
    have said := (isClosed_text (s := "throw") rfl).before
      ((isClosed_text (s := " ") rfl).before (isCode_string (written m rfl)))
    exact said.close rfl (by decide)

mutual

/-- What is written for a statement that is no comment. -/
theorem Statement.isClosed_doc (i : Indent) :
    (s : Statement) → s.Has Leaf.PrintsCode → (s.doc i).IsClosed
  | .comment _, h => (has_comment.1 h).elim
  | .importSkill m, h => by
    obtain ⟨-, skill, source⟩ := has_importSkill.1 h
    have lead := isClosed_text (s := "import ") rfl
    have first := (lead.before (isCode_string skill)).close (s := " from ") rfl (by decide)
    exact (first.before (isCode_string source)).close rfl (by decide)
  | .agent ⟨name, model, prompt, skills, permissions, properties, _, _⟩, h => by
    have h := has_agent.1 h
    have header := ((isClosed_text (s := "agent ") rfl).append
      (isPlain_ident h.name).isClosed).append
      (isClosed_text (s := ":\n") rfl)
    refine (((((header.append ?_).append ?_).append ?_).append ?_).append ?_)
    · exact .optional fun m hm ↦ isClosed_settingLine i rfl (isCode_model (h.model m hm))
    · exact .optional fun p hp ↦ isClosed_settingLine i rfl (isCode_string (h.prompt p hp))
    · exact .ite .empty (isClosed_settingLine i rfl (isClosed_skills h.skills).isCode)
    · exact isClosed_permissionsDoc i.deeper permissions h.permissions
    · exact isClosed_propertyLines i.deeper properties h.properties
  | .block ⟨_, _, body, _⟩, h => by
    obtain ⟨⟨name, params⟩, hbody⟩ := has_block.1 h
    have named := (isClosed_text (s := "block ") rfl).append (isPlain_ident name).isClosed
    have header := (named.append (isClosed_parenthesized (isCode_names params))).append
      (isClosed_text (s := ":\n") rfl)
    exact header.append (isClosed_bodyDoc i.deeper body hbody)
  | .binding kind ⟨_, value, _⟩, h => by
    obtain ⟨name, hvalue⟩ := has_binding.1 h
    obtain ⟨code, closed⟩ := value.isCode_doc i hvalue
    have word : (text kind.keyword.text).IsPlain := isPlain_of_keyword kind.keyword
    have named := (word.append (.text (s := " ") rfl)).append (isPlain_ident name)
    have header := named.append (.text (s := " = ") rfl)
    exact isClosed_line (header.isClosed.before code) fun ends ↦
      header.isClosed.append (closed ends)
  | .assignment ⟨_, value, _⟩, h => by
    obtain ⟨name, hvalue⟩ := has_assignment.1 h
    obtain ⟨code, closed⟩ := value.isCode_doc i hvalue
    have header := (isPlain_ident name).append (.text (s := " = ") rfl)
    exact isClosed_line (header.isClosed.before code) fun ends ↦
      header.isClosed.append (closed ends)
  | .action a, h => by
    have inner := a.isClosed_doc i (has_statement_action.1 h)
    cases a with
    | session | invoke => exact inner.append (isClosed_text rfl)
    | pipe | doBlock => exact inner
  | .parallel ⟨_, _, _, _, body, _⟩, h => by
    obtain ⟨⟨join, onFail, -, -⟩, hbody⟩ := has_parallel.1 h
    exact (isClosed_parallelHeader join onFail).append (isClosed_bodyDoc i.deeper body hbody)
  | .repeated ⟨count, _, body, _⟩, h => by
    obtain ⟨⟨-, index⟩, hbody⟩ := has_repeated.1 h
    have number : (text (toString count.val)).IsPlain := isPlain_toString count.val
    have counted := (IsPlain.text (s := "repeat ") rfl).append number
    have header := (counted.append (isPlain_asBinding index)).append (.text (s := ":\n") rfl)
    exact header.isClosed.append (isClosed_bodyDoc i.deeper body hbody)
  | .forEach ⟨item, index, collection, isParallel, forKeyword, inKeyword, body, span⟩, h => by
    obtain ⟨⟨-, -, hitem, hindex⟩, hcollection, hbody⟩ := has_forEach.1 h
    have header := isClosed_forEachHeader
      (f := ⟨item, index, collection, isParallel, forKeyword, inKeyword, [], span⟩) hitem hindex
      (collection.isCode_doc i hcollection).1
    exact header.append (isClosed_bodyDoc i.deeper body hbody)
  | .loop ⟨condition, maxIterations, index, keys, body, span⟩, h => by
    obtain ⟨hcondition, ⟨-, hindex, -⟩, hbody⟩ := has_loop.1 h
    have header := isClosed_loopHeader (l := ⟨condition, maxIterations, index, keys, [], span⟩)
      (fun c hc ↦ (hcondition c hc).2) hindex
    exact header.append (isClosed_bodyDoc i.deeper body hbody)
  | .attempt ⟨body, handler, cleanup, _⟩, h => by
    obtain ⟨error, hbody, handled, cleaned⟩ := has_attempt.1 h
    exact (((isClosed_text rfl).append (isClosed_bodyDoc i.deeper body hbody)).append
      (isClosed_handlerDoc i handler error handled)).append (isClosed_cleanupDoc i cleanup cleaned)
  | .throw ⟨_, _⟩, h => isClosed_throw i (has_throw.1 h)
  | .choice ⟨criteria, options, _⟩, h => by
    obtain ⟨hcriteria, hoptions⟩ := has_choice.1 h
    have said := (isClosed_text (s := "choice ") rfl).before (b := text criteria.raw) hcriteria
    have header := said.close (s := ":\n") rfl (by decide)
    exact header.append (isClosed_optionsDoc i.deeper options hoptions)
  | .conditional ⟨branches, otherwise, _⟩, h => by
    obtain ⟨-, hbranches, hotherwise⟩ := has_conditional.1 h
    exact (isClosed_branchesDoc i (isClosed_text rfl) branches hbranches).append
      (isClosed_otherwiseDoc i otherwise hotherwise)

private theorem isClosed_bodyDoc (i : Indent) :
    (body : List Statement) → BodyHas Leaf.PrintsCode body → (bodyDoc i body).IsClosed
  | [], _ => .empty
  | s :: body, h => by
    obtain ⟨first, rest⟩ := List.forall_mem_cons.1 h
    have line := (isPlain_indent i).isClosed.append (s.isClosed_doc i first)
    exact line.append (isClosed_bodyDoc i body rest)

private theorem isClosed_handlerDoc (i : Indent) :
    (handler : Option Handler) → (∀ h ∈ handler, ∀ b ∈ h.error, b.Has Leaf.PrintsCode) →
      (∀ h ∈ handler, BodyHas Leaf.PrintsCode h.body) → (handlerDoc i handler).IsClosed
  | none, _, _ => .empty
  | some ⟨error, body, span⟩, bound, handled => by
    have header := ((IsPlain.text (s := "catch") rfl).append
      (isPlain_asBinding (bound _ rfl))).append
      (.text (s := ":\n") rfl)
    exact (isPlain_indent i).isClosed.append
      (header.isClosed.append (isClosed_bodyDoc i.deeper body (handled _ rfl)))

private theorem isClosed_cleanupDoc (i : Indent) :
    (cleanup : Option Body) → (∀ c ∈ cleanup, BodyHas Leaf.PrintsCode c.body) →
      (cleanupDoc i cleanup).IsClosed
  | none, _ => .empty
  | some ⟨body, _⟩, h => (isPlain_indent i).isClosed.append
    ((isClosed_text rfl).append (isClosed_bodyDoc i.deeper body (h _ rfl)))

private theorem isClosed_otherwiseDoc (i : Indent) :
    (otherwise : Option Body) → (∀ c ∈ otherwise, BodyHas Leaf.PrintsCode c.body) →
      (otherwiseDoc i otherwise).IsClosed
  | none, _ => .empty
  | some ⟨body, _⟩, h => ((isPlain_indent i).append (.text rfl)).isClosed.append
    (isClosed_bodyDoc i.deeper body (h _ rfl))

private theorem isClosed_optionsDoc (i : Indent) :
    (options : List ChoiceOption) →
      (∀ o ∈ options, Leaf.PrintsCode (.string o.label) ∧ BodyHas Leaf.PrintsCode o.body) →
      (optionsDoc i options).IsClosed
  | [], _ => .empty
  | ⟨label, body, span⟩ :: options, h => by
    obtain ⟨⟨hlabel, first⟩, rest⟩ := List.forall_mem_cons.1 h
    have header := ((isClosed_text (s := "option ") rfl).before (isCode_string hlabel)).close
      (s := ":\n") rfl (by decide)
    have lines := (isPlain_indent i).isClosed.append
      (header.append (isClosed_bodyDoc i.deeper body first))
    exact lines.append (isClosed_optionsDoc i options rest)

private theorem isClosed_branchesDoc (i : Indent) {lead : Doc} (hlead : lead.IsClosed) :
    (branches : List Branch) →
      (∀ b ∈ branches, Leaf.PrintsCode (.discretion b.condition) ∧ BodyHas Leaf.PrintsCode b.body) →
      (branchesDoc i lead branches).IsClosed
  | [], _ => .empty
  | ⟨_, condition, body, _⟩ :: branches, h => by
    obtain ⟨⟨hcondition, first⟩, rest⟩ := List.forall_mem_cons.1 h
    have said := hlead.before (b := text condition.raw) hcondition
    have header := said.close (s := ":\n") rfl (by decide)
    exact (header.append (isClosed_bodyDoc i.deeper body first)).append
      (isClosed_branchesDoc i ((isPlain_indent i).append (.text rfl)).isClosed branches rest)

/-- What is written for an action. -/
theorem Action.isClosed_doc (i : Indent) : (a : Action) → a.Has Leaf.PrintsCode → (a.doc i).IsClosed
  | .session ⟨_, _, _, _, _, _, _, _, properties, _, _, _⟩, h => by
    have h := has_session.1 h
    exact isClosed_session { h with } (isCode_inlineProperties i properties h.properties)
  | .pipe ⟨input, operations, _⟩, h => by
    obtain ⟨hinput, hoperations⟩ := has_pipe.1 h
    obtain ⟨code, closed⟩ := input.isCode_doc i hinput
    exact (isClosed_line code closed).append
      (isClosed_operationsDoc i.deeper operations hoperations)
  | .doBlock ⟨body, _⟩, h =>
    (isClosed_text rfl).append (isClosed_bodyDoc i.deeper body (has_doBlock.1 h))
  | .invoke ⟨_, args, _⟩, h => by
    obtain ⟨name, hargs⟩ := has_invoke.1 h
    exact ((isClosed_text rfl).append (isPlain_ident name).isClosed).append
      (isClosed_parenthesized (isCode_valueDocs i args hargs))

private theorem isClosed_operationsDoc (i : Indent) :
    (operations : List Operation) → (∀ o ∈ operations, o.Has Leaf.PrintsCode) →
      (operationsDoc i operations).IsClosed
  | [], _ => .empty
  | ⟨operator, item, accumulator, body, span⟩ :: operations, h => by
    obtain ⟨first, rest⟩ := List.forall_mem_cons.1 h
    obtain ⟨⟨-, hitem, haccumulator⟩, hbody⟩ := has_operation.1 first
    have header := isClosed_operationHeader (o := ⟨operator, item, accumulator, [], span⟩) hitem
      haccumulator
    exact ((isPlain_indent i).isClosed.append
      (header.append (isClosed_bodyDoc i.deeper body hbody))).append
      (isClosed_operationsDoc i operations rest)

/-- What is written for a value, which may end with a literal unless it ends its line. -/
theorem Expr.isCode_doc (i : Indent) : (e : Expr) → e.Has Leaf.PrintsCode →
    (e.doc i).IsCode ∧ (e.endsLine = true → (e.doc i).IsClosed)
  | .action a, h => by
    have inner := a.isClosed_doc i (has_expr_action.1 h)
    have whole : ((Expr.action a).doc i).IsClosed := by cases a <;> exact inner
    exact ⟨whole.isCode, fun _ ↦ whole⟩
  | .string _, h => ⟨isCode_string (has_expr_string.1 h), nofun⟩
  | .number n, h => by
    have plain : (ident n).IsPlain := has_expr_number.1 h
    exact ⟨plain.isClosed.isCode, nofun⟩
  | .ident _, h => ⟨(isPlain_ident (has_expr_ident.1 h)).isClosed.isCode, nofun⟩
  | .array ⟨items, span⟩, h => by
    have hitems := isCode_commas (isCode_valueDocs i items (has_expr_array.1 h))
    exact ⟨(((isClosed_text rfl).before hitems).close rfl (by decide)).isCode, nofun⟩
  | .object ⟨entries, span⟩, h =>
    ⟨(isClosed_braced (isCode_entryDocs i entries (has_expr_object.1 h))).isCode, nofun⟩
  | .discretion _, h => ⟨has_expr_discretion.1 h, nofun⟩

private theorem isCode_valueDocs (i : Indent) :
    (es : List Expr) → (∀ e ∈ es, e.Has Leaf.PrintsCode) → ∀ d ∈ valueDocs i es, d.IsCode
  | [], _ => nofun
  | e :: es, h => by
    obtain ⟨first, rest⟩ := List.forall_mem_cons.1 h
    exact List.forall_mem_cons.2 ⟨(e.isCode_doc i first).1, isCode_valueDocs i es rest⟩

private theorem isCode_entryDocs (i : Indent) :
    (es : List Entry) → (∀ e ∈ es, e.Has Leaf.PrintsCode) → ∀ d ∈ entryDocs i es, d.IsCode
  | [], _ => nofun
  | ⟨key, some value⟩ :: es, h => by
    obtain ⟨⟨hkey, hvalue⟩, rest⟩ := List.forall_mem_cons.1 h
    have lead := (isPlain_ident hkey).append (.text (s := ": ") rfl)
    exact List.forall_mem_cons.2
      ⟨lead.isClosed.before (value.isCode_doc i (hvalue value rfl)).1, isCode_entryDocs i es rest⟩
  | ⟨key, none⟩ :: es, h => by
    obtain ⟨⟨hkey, -⟩, rest⟩ := List.forall_mem_cons.1 h
    exact List.forall_mem_cons.2 ⟨(isPlain_ident hkey).isClosed.isCode, isCode_entryDocs i es rest⟩

private theorem isClosed_permissionsDoc (i : Indent) :
    (permissions : Option (List Property)) →
      (∀ group ∈ permissions, ∀ p ∈ group, p.Has Leaf.PrintsCode) →
      (permissionsDoc i permissions).IsClosed
  | none, _ => .empty
  | some properties, h => ((isPlain_indent i).append (.text rfl)).isClosed.append
    (isClosed_propertyLines i.deeper properties (h properties rfl))

private theorem isClosed_propertyLines (i : Indent) :
    (properties : List Property) → (∀ p ∈ properties, p.Has Leaf.PrintsCode) →
      (propertyLines i properties).IsClosed
  | [], _ => .empty
  | ⟨key, value, span⟩ :: properties, h => by
    obtain ⟨⟨hkey, hvalue⟩, rest⟩ := List.forall_mem_cons.1 h
    have key : (ident key).IsPlain := hkey
    have lines := (isPlain_indent i).isClosed.append
      (key.isClosed.append (value.isClosed_lines i hvalue))
    exact lines.append (isClosed_propertyLines i properties rest)

private theorem PropertyValue.isClosed_lines (i : Indent) :
    (value : PropertyValue) → value.Has Leaf.PrintsCode → (value.lines i).IsClosed
  | .expr e, h => by
    obtain ⟨code, closed⟩ := e.isCode_doc i (has_property_expr.1 h)
    have lead := isClosed_text (s := ": ") rfl
    exact isClosed_line (lead.before code) fun ends ↦ lead.append (closed ends)
  | .context _, h => by
    have lead := (isClosed_text (s := ": ") rfl).append
      (isClosed_context (has_property_context.1 h))
    exact lead.append (isClosed_text rfl)
  | .nested properties, h =>
    (isClosed_text rfl).append (isClosed_propertyLines i.deeper properties
      (has_property_nested.1 h))

private theorem isCode_inlineProperties (i : Indent) :
    (properties : List Property) → (∀ p ∈ properties, p.Has Leaf.PrintsCode) →
      ∀ d ∈ inlineProperties i properties, d.IsCode
  | [], _ => nofun
  | ⟨key, value, _⟩ :: properties, h => by
    obtain ⟨⟨hkey, hvalue⟩, rest⟩ := List.forall_mem_cons.1 h
    have key : (ident key).IsPlain := hkey
    have lead := key.append (.text (s := ": ") rfl)
    exact List.forall_mem_cons.2
      ⟨lead.isClosed.before (value.isCode_inline i hvalue),
        isCode_inlineProperties i properties rest⟩

private theorem PropertyValue.isCode_inline (i : Indent) :
    (value : PropertyValue) → value.Has Leaf.PrintsCode → (value.inline i).IsCode
  | .expr e, h => (e.isCode_doc i (has_property_expr.1 h)).1
  | .context _, h => (isClosed_context (has_property_context.1 h)).isCode
  | .nested properties, h => by
    have inner := isCode_commas (isCode_inlineProperties i properties (has_property_nested.1 h))
    exact (((isClosed_text rfl).before inner).close rfl (by decide)).isCode

end

/-! ## Programs that were read -/

/-- What is printed for a leaf that was read is no comment, if the leaf is none and it is
spelled. -/
theorem Leaf.IsRead.printsCode {source : String} {l : Leaf}
    (h : l.IsRead (visible (tokenize source).tokens)) (code : ∀ c, l ≠ .comment c)
    (spelled : l.IsSpelled) : l.PrintsCode := by
  cases l with
  | name x => exact isPlain_of_identifier h
  | key x =>
    rcases h with h | ⟨word, -, text⟩
    · exact isPlain_of_identifier h
    · intro c hc
      exact isPlain_of_keyword word c (text ▸ hc)
  | numeral x => exact isPlain_of_number h
  | string s =>
    obtain ⟨literal, h, same⟩ := h
    have raw : literal.raw = s.raw := congrArg StringLit.raw same
    rw [Leaf.PrintsCode, ← raw]
    exact keepsCode_of_string h
  | discretion d =>
    obtain ⟨literal, h, same⟩ := h
    have raw : literal.raw = d.raw := congrArg Discretion.raw same
    rw [Leaf.PrintsCode, ← raw]
    exact keepsCode_of_discretion h
  | comment c => exact absurd rfl (code c)
  | _ => exact spelled

private theorem printsCode_numbered {stem : String} (h : stem.toList.all isPlain = true) (n : Nat) :
    Leaf.PrintsCode (.name (.made (stem ++ toString n))) := by
  change ∀ c ∈ (stem ++ toString n).toList, isPlain c = true
  rw [String.toList_append]
  exact List.forall_mem_append.2 ⟨List.all_eq_true.1 h, isPlain_toString n⟩

private theorem Leaf.printsCode_made : Leaf.HoldsOfMade Leaf.PrintsCode where
  again _ h := h
  anonymous n := printsCode_numbered rfl n
  branch n := printsCode_numbered rfl n
  item := List.all_eq_true.1 rfl
  accumulator := List.all_eq_true.1 rfl
  quoted _ h := h
  count _ := trivial

/-- A program of spelled leaves prints no comments if none are left among its statements. -/
theorem printsCode_withoutComments {source : String} {p : Program}
    (read : BodyHas (Leaf.IsRead (visible (tokenize source).tokens)) p.statements)
    (spelled : ∀ l ∈ p.leaves, l.IsSpelled) (none : p.withoutComments.commentStatements = []) :
    BodyHas Leaf.PrintsCode p.withoutComments.statements := by
  have each := (forall_bodyVisits _).2 read
  have all : BodyHas (fun l ↦ (∃ c, l = .comment c) ∨ l.PrintsCode) p.statements := by
    refine (forall_bodyVisits _).1 fun v hv ↦ ⟨fun l hl ↦ ?_, (each v hv).2⟩
    refine or_iff_not_imp_left.2 fun code ↦ ((each v hv).1 l hl).printsCode (not_exists.1 code) ?_
    exact spelled l (List.mem_flatMap.2 ⟨v, hv, hl⟩)
  have left := (forall_bodyVisits _).2 (bodyHas_withoutComments (fun c ↦ .inl ⟨c, rfl⟩) all)
  refine (forall_bodyVisits _).1 fun v hv ↦ ⟨fun l hl ↦ ?_, (left v hv).2⟩
  refine ((left v hv).1 l hl).resolve_left ?_
  rintro ⟨c, rfl⟩
  have among := List.filterMap_eq_nil_iff.1 none v hv
  rw [Visit.comment?_of_mem_leaves hl] at among
  cases among

/-- Compiling without comments hands over all comments of the source in their order and leaves
everything else in the program. The comments that it leaves too are those in collections of loops
and in settings; if there are none, and what is printed in quotes has no carriage returns, the text
has no comments. -/
theorem compile_comments {source : String} {options : CompileOptions} {c : Compiled}
    (strips : options.stripComments = true)
    (compiled : compile (parse source).program options = .ok c) :
    let p := (parse source).program
    uncommented p.withoutComments = uncommented p
      ∧ (∀ x, x ∈ p.withoutComments.commentStatements ↔ x ∈ sealedComments p.visits)
      ∧ c.strippedComments = (tokenize source).tokens.filterMap Token.comment?
      ∧ c.strippedComments.Pairwise (fun a b ↦ a.span.start.offset < b.span.start.offset)
      ∧ (sealedComments p.visits = [] → (∀ l ∈ p.leaves, l.IsSpelled) →
        ∀ t ∈ (tokenize c.text).tokens, t.kind.isComment = false) := by
  intro p
  have stripped : c.strippedComments = (tokenize source).tokens.filterMap Token.comment? := by
    rw [← commentsOf_of_inOrder (inOrder_tokenize source)]
    unfold compile at compiled
    split at compiled
    · cases compiled
    · obtain rfl := Except.ok.inj compiled
      exact if_pos strips
  refine ⟨uncommented_withoutComments p, mem_commentStatements_withoutComments p, stripped, ?_, ?_⟩
  · rw [stripped]
    exact pairwise_comments (inOrder_tokenize source)
  · intro unsealed spelled
    have none : p.withoutComments.commentStatements = [] := by
      refine List.eq_nil_iff_forall_not_mem.2 fun x hx ↦ ?_
      rw [mem_commentStatements_withoutComments, unsealed] at hx
      cases hx
    have read : BodyHas (Leaf.IsRead (visible (tokenize source).tokens)) p.statements :=
      fun s hs ↦ (isRead_parseTokens (tokenize source).tokens s hs).1
    have printed := Program.canonical_has Leaf.printsCode_made
      (printsCode_withoutComments read spelled none)
    have program := compile_program compiled
    rw [if_pos strips] at program
    rw [← program] at printed
    refine isComment_of_isCode ?_
    rw [(compile_doc compiled).1, toList_render]
    have whole := isClosed_bodyDoc { unit := max 1 options.indentWidth } _ printed [] isCode_nil
    rwa [List.append_nil] at whole

/-- Comments in the bodies of an option, of a value and of the operation of a pipe, some of which
are no statements, and what looks like comments in literals. -/
theorem compile_comments_nested :
    let source := "# a\nchoice **#1**:\n  # b\n  option \"# o\":\n    # c\n    let x = do:\n      # d\n      session \"y\"\n    let z = [\"#\"]\n      | map:\n        # e\n        session \"\"\"z\n# t\"\"\" # f\n"
    let p := (parse source).program
    (parse source).hasErrors = false
      ∧ p.commentStatements.map Comment.text = ["# a", "# c", "# d", "# e"]
      ∧ ∃ c, compile p {} = .ok c
        ∧ uncommented p.withoutComments = uncommented p
        ∧ (∀ x, x ∈ p.withoutComments.commentStatements ↔ x ∈ sealedComments p.visits)
        ∧ sealedComments p.visits = []
        ∧ c.strippedComments = (tokenize source).tokens.filterMap Token.comment?
        ∧ c.strippedComments.map Comment.text = ["# a", "# b", "# c", "# d", "# e", "# f"]
        ∧ ∀ t ∈ (tokenize c.text).tokens, t.kind.isComment = false := by
  intro source p
  obtain ⟨c, compiled⟩ : ∃ c, compile p {} = .ok c := ⟨_, rfl⟩
  obtain ⟨others, left, stripped, -, text⟩ := @compile_comments source {} c rfl compiled
  -- one evaluation for all facts, as most of it is the evaluation of the lexer
  obtain ⟨comments, noErrors, statements, unsealed, spelled⟩ :
      ((tokenize source).tokens.filterMap Token.comment?).map Comment.text
          = ["# a", "# b", "# c", "# d", "# e", "# f"]
        ∧ (parse source).hasErrors = false
        ∧ p.commentStatements.map Comment.text = ["# a", "# c", "# d", "# e"]
        ∧ sealedComments p.visits = [] ∧ ∀ l ∈ p.leaves, l.IsSpelled := by decide +kernel
  rw [← stripped] at comments
  exact ⟨noErrors, statements, c, compiled, others, left, unsealed, stripped, comments,
    text unsealed spelled⟩

/-- The comment in the collection of a loop is printed. -/
theorem comment_left_in_collection :
    let source := "for x in do:\n  # c\n  session \"a\"\n:\n  session \"b\"\n"
    let p := (parse source).program
    (parse source).hasErrors = false ∧ (validate p {}).isValid = true
      ∧ p.withoutComments.commentStatements.map Comment.text = ["# c"]
      ∧ ∃ c, compile p {} = .ok c ∧ c.strippedComments.map Comment.text = ["# c"]
        ∧ c.text = "for x in do:\n  # c\n  session _anon_0: \x7b prompt: \"a\", context: [] \x7d\n:\n  session _anon_1: \x7b prompt: \"b\", context: [] \x7d\n"
        ∧ (tokenize c.text).tokens.any (·.kind.isComment) = true := by
  refine ⟨?_, ?_, ?_, _, rfl, ?_, ?_, ?_⟩ <;> decide +kernel

end ProseLang
