import ProseLang.Proofs.Grammar.Outlines

/-!
# What programs record of the text

A leaf of a program records what the text says where it stands (`Leaf.IsWritten`): a leaf is read
from a token, and a token is written as the stretch of text that it spans. The constructs that start
with a reserved word do so in the text (`Span.StartsWith`). Neither depends on what is wrong
elsewhere in the text (`program_isWritten`).
-/

namespace ProseLang

variable {source : String}

/-- Whether a span of a source text is written as some text. -/
def Span.Says (source : String) (s : Span) (text : String) : Prop :=
  sliceBytes? s.start.offset s.stop.offset source.toList = some text.toList

/-- Whether a span of a source text is a string literal that stands for a text. -/
def Span.Quotes (source : String) (s : Span) (text : String) : Prop :=
  ∃ triple body, s.Says source (String.ofList (StringLiteral.written triple body))
    ∧ ⟨.string (.decode s.start triple body), s⟩ ∈ (tokenize source).tokens
    ∧ (StringLiteral.decode s.start triple body).value = text

/-- Whether a span of a source text is a name. -/
def Span.Names (source : String) (s : Span) (name : String) : Prop :=
  s.Says source name ∧ ⟨.identifier name, s⟩ ∈ (tokenize source).tokens

/-- Whether a span of a source text starts with a reserved word. -/
def Span.StartsWith (source : String) (s : Span) (word : Keyword) : Prop :=
  ∃ t ∈ (tokenize source).tokens,
    t.kind = .keyword word ∧ t.span.start = s.start ∧ t.span.Says source word.text

/-- Whether a leaf records what a source text says where it stands. -/
def Leaf.IsWritten (source : String) : Leaf → Prop
  | name x | key x | numeral x => x.span.Says source x.val
  | quoted x => x.span.Quotes source x.val
  | model x => x.span.Names source x.val ∨ x.span.Quotes source x.val
  | count x => ∃ digits, x.span.Says source digits ∧ wholeNumber? digits.toList = some x.val
  | string s =>
    s.span.Says source s.raw
      ∧ ∀ hole ∈ s.interpolations, hole.span.Says source (String.ofList (holeText hole.val))
  | discretion d => d.span.Says source d.raw
  | comment c => c.span.Says source c.text
  | keyword word span => span.Says source word.text
  | operator o => o.span.Says source o.val.text
  | arrow span => span.Says source Punctuation.arrow.text

/-! ## Tokens -/

/-- A token is written as the text that it spans. -/
theorem says_of_mem {t : Token} (h : t ∈ visible (tokenize source).tokens) :
    ∀ text ∈ t.kind.text?, t.span.Says source text := by
  intro text written
  obtain ⟨chars, slice, spelled⟩ := (partition_tokens source).written t h
  rw [Span.Says, slice, spelled text written]

/-- A visible token is a token. -/
theorem mem_tokens_of_visible {t : Token} (h : t ∈ visible (tokenize source).tokens) :
    t ∈ (tokenize source).tokens := (mem_visible.1 h).1

private theorem quotes_of_mem {literal : StringLiteral} {span : Span}
    (h : ⟨.string literal, span⟩ ∈ visible (tokenize source).tokens) :
    span.Quotes source literal.value := by
  have slice : span.Says source literal.raw := says_of_mem h literal.raw rfl
  obtain ⟨-, -, triple, body, -, -, rfl⟩ := string_mem_tokenize h
  exact ⟨triple, body, slice, mem_tokens_of_visible h, rfl⟩

/-- The names in a string are written in their braces. -/
theorem says_of_mem_interpolations {literal : StringLiteral} {span : Span} {hole : Ident}
    (h : ⟨.string literal, span⟩ ∈ visible (tokenize source).tokens)
    (member : hole ∈ (StringLit.ofLiteral literal span).interpolations) :
    hole.span.Says source (String.ofList (holeText hole.val)) := by
  obtain ⟨inner, hinner, rfl⟩ := List.mem_map.1 member
  rw [Span.Says, String.toList_ofList]
  exact (holes_tokenize h inner hinner).2

/-- A leaf that is read from a token of a text is written there. -/
theorem Leaf.isWritten_of_isRead {l : Leaf} (h : l.IsRead (visible (tokenize source).tokens)) :
    l.IsWritten source := by
  cases l with
  | name x | numeral x | comment x | operator x => exact says_of_mem h _ rfl
  | keyword word span | arrow span => exact says_of_mem h _ rfl
  | key x =>
    rcases h with h | ⟨word, h, text⟩
    · exact says_of_mem h _ rfl
    · rw [IsWritten, ← text]
      exact says_of_mem h _ rfl
  | quoted x =>
    obtain ⟨literal, h, value⟩ := h
    rw [IsWritten, ← value]
    exact quotes_of_mem h
  | model x =>
    rcases h with h | ⟨literal, h, value⟩
    · exact .inl ⟨says_of_mem h _ rfl, mem_tokens_of_visible h⟩
    · exact .inr (value ▸ quotes_of_mem h)
  | count x =>
    obtain ⟨digits, h, value⟩ := h
    exact ⟨digits, says_of_mem h _ rfl, value⟩
  | string s =>
    obtain ⟨literal, h, same⟩ := h
    constructor
    · have slice := says_of_mem h literal.raw rfl
      rw [← same]
      exact slice
    · intro hole member
      rw [← same] at member
      exact says_of_mem_interpolations h member
  | discretion d =>
    obtain ⟨literal, h, same⟩ := h
    have slice := says_of_mem h literal.raw rfl
    rw [← same]
    exact slice

private theorem Keyword.Opens.startsWith {s : Span} {word : Keyword}
    (h : word.Opens (tokenize source).tokens s) : s.StartsWith source word := by
  obtain ⟨t, member, kind, starts⟩ := h
  have seen : t ∈ visible (tokenize source).tokens := mem_visible.2 ⟨member, by rw [kind]; rfl⟩
  refine ⟨t, member, kind, starts, says_of_mem seen _ ?_⟩
  rw [kind]
  rfl

/-! ## Programs -/

/-- A comment that is recorded is a token. -/
theorem mem_of_mem_commentsOf {ts : List Token} {c : Comment} (h : c ∈ commentsOf ts) :
    ⟨.comment c.text, c.span⟩ ∈ visible ts := by
  obtain ⟨t, member, found⟩ := List.mem_filterMap.1 (List.mem_mergeSort.1 h)
  split at found
  · cases found
    exact mem_visible.2 ⟨member, rfl⟩
  · cases found

/-- Whatever is wrong with a text, its program records what the text says: every leaf and every
comment is what is written where it stands, and every construct that a reserved word introduces
starts with that word. -/
theorem program_isWritten (source : String) :
    (∀ l ∈ (parse source).program.leaves, l.IsWritten source)
      ∧ (∀ c ∈ (parse source).program.comments, c.span.Says source c.text)
      ∧ ∀ o ∈ (parse source).program.outlines, ∀ p ∈ o.nodes, ∀ word ∈ p.opener,
          p.span.StartsWith source word := by
  refine ⟨fun l hl ↦ ?_, fun c hc ↦ ?_, fun o ho p hp word hword ↦ ?_⟩
  · exact Leaf.isWritten_of_isRead (leaves_parseTokens (tokenize source).tokens l hl)
  · exact says_of_mem (mem_of_mem_commentsOf hc) c.text rfl
  · obtain ⟨n, fits, -⟩ := strung_parse source
    exact (((fits o ho).sound p hp).opens word hword).startsWith

end ProseLang
