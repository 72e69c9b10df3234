import ProseLang.Proofs.Canonical.Marks
import ProseLang.Proofs.Grammar.Wording
import ProseLang.Proofs.Token.Quotes

/-!
# What the entries of a source map point at

An entry of a source map whose stretch is a leaf points from the text that was printed for the leaf
to the text that the leaf was read from (`Compiled.marks`, `Doc.leafText?`). Both denote the leaf
(`Leaf.IsSaidBy`): names, numbers, strings and discretions are printed as they were written, and
what is printed in quotes of its own is read back, unless a carriage return stands in it
(`Leaf.IsSpelled`, `compile_leaf_entries`, `compiled_skill_with_return`).
-/

namespace ProseLang

/-- Whether a text denotes what a leaf records. A name denotes itself as a model. -/
def Leaf.IsSaidBy (text : String) : Leaf → Prop
  | name x | key x | numeral x => text = x.val
  | quoted x => ReadsAsString text x.val
  | model x => (text = x.val ∧ text.toList.head? ≠ some '"') ∨ ReadsAsString text x.val
  | count n => wholeNumber? text.toList = some n.val
  | string s => ReadsAsString text s.value
  | discretion d => text = d.raw
  | comment c => text = c.text
  | keyword word _ => text = word.text
  | operator o => text = o.val.text
  | arrow _ => text = Punctuation.arrow.text

/-- Whether what is printed for a leaf spells it: in quotes a carriage return is not escaped. -/
def Leaf.IsSpelled : Leaf → Prop
  | quoted x => '\r' ∉ x.val.toList
  | model x => isPlainName x.val = true ∨ '\r' ∉ x.val.toList
  | _ => True

instance : DecidablePred Leaf.IsSpelled
  | .quoted x => inferInstanceAs (Decidable ('\r' ∉ x.val.toList))
  | .model x => inferInstanceAs (Decidable (isPlainName x.val = true ∨ '\r' ∉ x.val.toList))
  | .name _ | .key _ | .numeral _ | .count _ | .string _ | .discretion _ | .comment _
  | .keyword _ _ | .operator _ | .arrow _ => isTrue trivial

/-- Every entry of the source map of a compiled program, with what is printed in its stretch. -/
def Compiled.marks (c : Compiled) (options : CompileOptions) : List (Mapping × Doc) :=
  (c.program.doc options.indentWidth).stretches .start

instance (source : String) (s : Span) (text : String) : Decidable (s.Says source text) :=
  inferInstanceAs (Decidable (sliceBytes? _ _ _ = _))

/-! ## What denotes a leaf -/

/-- A plain name does not start with a quote. -/
theorem head?_ne_quote_of_isPlainName {name : String} (h : isPlainName name = true) :
    name.toList.head? ≠ some '"' := by
  intro quote
  rw [isPlainName, quote] at h
  exact absurd h Bool.false_ne_true

namespace Leaf

variable {source : String}

private theorem readsAsString_of_isRead {s : StringLit}
    (h : (string s).IsRead (visible (tokenize source).tokens)) : ReadsAsString s.raw s.value := by
  obtain ⟨literal, member, same⟩ := h
  have reads := readsAsString_of_mem member
  have raw : literal.raw = s.raw := congrArg StringLit.raw same
  have value : literal.value = s.value := congrArg StringLit.value same
  rwa [raw, value] at reads

/-- A leaf is written where it was read. -/
theorem IsRead.exists_says {l : Leaf} (h : l.IsRead (visible (tokenize source).tokens)) :
    ∃ written, l.span.Says source written ∧ l.IsSaidBy written := by
  cases l with
  | name | key | numeral | discretion | comment | keyword | operator | arrow =>
    exact ⟨_, isWritten_of_isRead h, rfl⟩
  | quoted x =>
    obtain ⟨literal, h, value⟩ := h
    have reads := readsAsString_of_mem h
    rw [value] at reads
    exact ⟨_, says_of_mem h _ rfl, reads⟩
  | model x =>
    rcases h with h | ⟨literal, h, value⟩
    · exact ⟨_, says_of_mem h _ rfl, .inl ⟨rfl, head?_ne_quote_of_mem h⟩⟩
    · have reads := readsAsString_of_mem h
      rw [value] at reads
      exact ⟨_, says_of_mem h _ rfl, .inr reads⟩
  | count x =>
    obtain ⟨digits, h, value⟩ := h
    exact ⟨_, says_of_mem h _ rfl, value⟩
  | string s =>
    have written := (isWritten_of_isRead h).1
    exact ⟨_, written, readsAsString_of_isRead h⟩

/-- What is printed for a leaf that was read denotes the leaf, if it spells it. -/
theorem IsRead.isSaidBy_iff {l : Leaf} (h : l.IsRead (visible (tokenize source).tokens))
    {text : String} (printed : text ∈ l.printed?) : l.IsSaidBy text ↔ l.IsSpelled := by
  cases l with
  | name x | key x | numeral x | discretion d =>
    cases printed
    exact iff_of_true rfl trivial
  | count n =>
    cases printed
    exact iff_of_true (by simp [IsSaidBy, wholeNumber?_toDigits]) trivial
  | string s =>
    cases printed
    exact iff_of_true (readsAsString_of_isRead h) trivial
  | quoted x =>
    cases printed
    exact readsAsString_ofText_iff x.val
  | model x =>
    cases printed
    cases plain : isPlainName x.val with
    | true => exact iff_of_true (.inl ⟨by simp, head?_ne_quote_of_isPlainName plain⟩) (.inl plain)
    | false =>
      have quote : (StringLiteral.ofText x.val).raw.toList.head? = some '"' := by
        simp [StringLiteral.ofText, StringLiteral.decode, StringLiteral.quotes]
      simp [IsSaidBy, IsSpelled, plain, quote, readsAsString_ofText_iff]
  | comment | keyword | operator | arrow => cases printed

end Leaf

/-! ## Entries of leaves -/

/-- Whether a leaf that has a place and is printed is read from the tokens of a source text. -/
def Leaf.IsPlaced (source : String) (l : Leaf) : Prop :=
  l.span.isNowhere = false → l.printed?.isSome → l.IsRead (visible (tokenize source).tokens)

private theorem Leaf.isPlaced_of_isNowhere (source : String) {l : Leaf}
    (h : l.span.isNowhere = true) : l.IsPlaced source :=
  fun place ↦ absurd (h.symm.trans place) (by decide)

private theorem Leaf.isPlaced_made (source : String) : Leaf.HoldsOfMade (Leaf.IsPlaced source) where
  again _ _ := isPlaced_of_isNowhere source rfl
  anonymous _ := isPlaced_of_isNowhere source rfl
  branch _ := isPlaced_of_isNowhere source rfl
  item := isPlaced_of_isNowhere source rfl
  accumulator := isPlaced_of_isNowhere source rfl
  quoted _ _ := isPlaced_of_isNowhere source rfl
  count _ := isPlaced_of_isNowhere source rfl

/-- The leaves of a compiled program that are printed and have a place are read from its source. -/
theorem compile_isPlaced {source : String} {options : CompileOptions} {c : Compiled}
    (compiled : compile (parse source).program options = .ok c) :
    BodyHas (fun l ↦ l ∈ c.program.leaves ∧ l.IsPlaced source) c.program.statements := by
  have read : BodyHas (Leaf.IsPlaced source) (parse source).program.statements :=
    fun s hs ↦ (isRead_parseTokens (tokenize source).tokens s hs).1.imp fun _ hl _ _ ↦ hl
  have stripped : BodyHas (Leaf.IsPlaced source)
      (if options.stripComments then (parse source).program.withoutComments
        else (parse source).program).statements := by
    split
    · exact bodyHas_withoutComments (fun _ _ printed ↦ absurd printed Bool.false_ne_true) read
    · exact read
  have placed := Program.canonical_has (Leaf.isPlaced_made source) stripped
  rw [← compile_program compiled] at placed
  have each := (forall_bodyVisits _).2 placed
  refine (forall_bodyVisits _).1 fun v hv ↦ ⟨fun l hl ↦ ?_, (each v hv).2⟩
  exact ⟨List.mem_flatMap.2 ⟨v, hv, hl⟩, (each v hv).1 l hl⟩

private theorem Leaf.isPlaced_giveMarks (source : String) (leaves : List Leaf) :
    Leaf.GiveMarks (fun l ↦ l ∈ leaves ∧ l.IsPlaced source) fun origin d ↦
      origin.isNowhere = false → ∀ text ∈ d.leafText?, ∃ l ∈ leaves, l.span = origin
        ∧ text ∈ l.printed? ∧ l.IsRead (visible (tokenize source).tokens) where
  leaf l h printed hprinted place text inner := by
    have same : printed = text := by
      simp only [Doc.leafText?] at inner
      split at inner
      · cases inner
      · exact Option.some.inj inner
    rw [← same]
    exact ⟨l, h.1, rfl, hprinted, h.2 place (Option.isSome_of_mem hprinted)⟩
  construct _ _ _ parts _ text inner := by
    rw [parts] at inner
    cases inner

namespace Doc

/-- What holds of every mark holds of what is written in every stretch. -/
theorem Each.of_mem_stretches {P : Span → Doc → Prop} {d : Doc} (h : d.Each P) {p : Position}
    {e : Mapping × Doc} (he : e ∈ d.stretches p) :
    P e.1.source e.2 ∧ e.1.source.isNowhere = false := by
  induction d generalizing p with
  | text s => cases he
  | append a b iha ihb => exact (List.mem_append.1 he).elim (iha h.1) (ihb h.2)
  | mark origin d ih =>
    rcases mem_stretches_mark.1 he with he | ⟨place, rfl⟩
    · exact ih h.2 he
    · exact ⟨h.1, place⟩

/-- A stretch spans in the text what is written in it. -/
theorem says_of_mem_stretches {d : Doc} {e : Mapping × Doc} (he : e ∈ d.stretches .start)
    {text : String} (h : text ∈ e.2.leafText?) : e.1.generated.Says d.render text := by
  obtain ⟨before, after, whole, generated⟩ := part_of_mem_stretches he
  have inner : e.2.chars = text.toList := by
    obtain ⟨m, d⟩ := e
    cases d with
    | text s =>
      simp only [leafText?] at h
      split at h
      · cases h
      · rw [← Option.some.inj h]
        rfl
    | append | mark => cases h
  have slice := sliceBytes?_append before text.toList after
  rw [inner] at whole generated
  rw [Span.Says, toList_render, whole, generated]
  simpa only [Position.offset_after, Position.start, Nat.zero_add] using slice

end Doc

/-- Every entry of the source map of a compiled text whose stretch is a leaf points from what
denotes a leaf of the program to what denotes the same leaf in the source, unless what is printed
for it does not spell it. -/
theorem compile_leaf_entries {source : String} {options : CompileOptions} {c : Compiled}
    (compiled : compile (parse source).program options = .ok c) :
    (c.marks options).map Prod.fst = c.sourceMap.entries
      ∧ ∀ e ∈ c.marks options, ∀ text ∈ e.2.leafText?,
        e.1.generated.Says c.text text
          ∧ ∃ l ∈ c.program.leaves, l.span = e.1.source
            ∧ (∃ written, e.1.source.Says source written ∧ l.IsSaidBy written)
            ∧ (l.IsSaidBy text ↔ l.IsSpelled) := by
  have leaves := compile_isPlaced compiled
  obtain ⟨text, sourceMap⟩ := compile_doc compiled
  have each : (c.program.doc options.indentWidth).Each _ :=
    bodyDoc_each (Leaf.isPlaced_giveMarks source c.program.leaves) _ _ leaves
  refine ⟨?_, fun e he printed inner ↦ ?_⟩
  · rw [sourceMap]
    exact Doc.map_fst_stretches _ _
  · obtain ⟨entry, place⟩ := each.of_mem_stretches he
    obtain ⟨l, member, origin, stands, read⟩ := entry place printed inner
    rw [text, ← origin]
    exact ⟨Doc.says_of_mem_stretches he inner, l, member, rfl, read.exists_says,
      read.isSaidBy_iff stands⟩

/-- The skill of an agent is recorded for every session that it is copied to. -/
theorem compile_leaf_entries_copied :
    let source := "import \"\"\"s\"\"\" from \"x\"\nagent a:\n  model: \"opus\"\n  skills: [\"\"\"s\"\"\"]\nloop (max: 03):\n  session \"x\": a\n"
    (parse source).hasErrors = false ∧ (validate (parse source).program {}).isValid = true
      ∧ ∃ c, compile (parse source).program {} = .ok c
        ∧ (c.marks {}).filterMap (·.2.leafText?)
          = ["\"\"\"s\"\"\"", "\"x\"", "a", "opus", "\"s\"", "3", "a", "opus", "\"x\"", "\"s\""]
        ∧ (c.marks {}).map Prod.fst = c.sourceMap.entries
        ∧ ∀ e ∈ c.marks {}, ∀ text ∈ e.2.leafText?,
          e.1.generated.Says c.text text
            ∧ ∃ l ∈ c.program.leaves, l.span = e.1.source
              ∧ (∃ written, e.1.source.Says source written ∧ l.IsSaidBy written)
              ∧ (l.IsSaidBy text ↔ l.IsSpelled) := by
  exact ⟨by decide +kernel, by decide +kernel, _, rfl, by decide +kernel, compile_leaf_entries rfl⟩

/-- A carriage return in a skill is printed as it is, and the string breaks off before it. -/
theorem compiled_skill_with_return :
    let source := "import \"\"\"a\rb\"\"\" from \"x\"\nsession \"x\":\n  skills: [\"\"\"a\rb\"\"\"]\n"
    let p := (parse source).program
    let written := "\"\"\"a\rb\"\"\""
    let printed := "\"a\rb\""
    (parse source).hasErrors = false ∧ (validate p {}).isValid = true
      ∧ (∃ c, compile p {} = .ok c ∧ ∃ e ∈ c.marks {},
        e.2.leafText? = some printed ∧ e.1.generated.Says c.text printed
          ∧ e.1.source.Says source written)
      ∧ ReadsAsString written "a\rb" ∧ ∀ value, ¬ReadsAsString printed value := by
  intro source p written printed
  refine ⟨by decide +kernel, by decide +kernel, ⟨_, rfl, by decide +kernel⟩, ?_, ?_⟩
  · exact ⟨.decode .start true ['a', '\r', 'b'], ⟨⟨0, 1, 0⟩, ⟨9, 1, 9⟩⟩, by decide +kernel,
      by decide +kernel⟩
  · rintro value ⟨literal, span, tokens, -⟩
    have broken : (visible (tokenize printed).tokens).head?.map Token.kind = some .invalid := by
      decide +kernel
    rw [tokens] at broken
    cases broken

end ProseLang
