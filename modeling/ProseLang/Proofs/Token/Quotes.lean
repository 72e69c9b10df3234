import ProseLang.Proofs.Token.Holes
import ProseLang.Proofs.Token.Lexeme

/-!
# Strings by themselves

A text may be one string and nothing else (`ReadsAsString`). What a string token spans is such a
text (`readsAsString_of_mem`): where a string ends does not depend on what follows it. The literal
that is made for a text is one exactly if no carriage return stands in the text
(`readsAsString_ofText_iff`), since a carriage return ends a line but has no escape.
-/

namespace ProseLang

/-- Whether a text by itself is one string, which stands for `value`. -/
def ReadsAsString (text value : String) : Prop :=
  ∃ literal span, visible (tokenize text).tokens = [⟨.string literal, span⟩] ∧ literal.value = value

/-- A character is spelled as itself, or with an escape that stays on the line. -/
theorem Piece.spell_cases (c : Char) :
    (spell c = plain c ∧ c ≠ '"' ∧ c ≠ '\\' ∧ c ≠ '\n')
      ∨ ∃ d, ¬(d = '\n' || d = '\r') = true ∧ spell c = escape d := by
  unfold spell
  split
  · exact .inr ⟨_, by decide, rfl⟩
  · exact .inr ⟨_, by decide, rfl⟩
  · exact .inr ⟨_, by decide, rfl⟩
  · exact .inr ⟨_, by decide, rfl⟩
  · exact .inr ⟨_, by decide, rfl⟩
  · exact .inr ⟨_, by decide, rfl⟩
  · next quote backslash feed _ _ _ => exact .inl ⟨rfl, quote, backslash, feed⟩

/-! ## Literals without what follows them -/

/-- Whether the rest of a literal is closed with nothing after it. -/
structure Tail.IsAll {marker text : List Char} (t : Tail marker text) (body : List Char) :
    Prop where
  closed : t.closed = true
  body : t.body = body
  rest : t.rest = []

namespace Tail

variable {marker text body : List Char}

private theorem IsAll.cons {t : Tail marker text} (h : t.IsAll body) (c : Char) :
    (t.cons c).IsAll (c :: body) :=
  ⟨h.closed, congrArg (c :: ·) h.body, h.rest⟩

/-- A closed string ends where it does if nothing follows it. -/
theorem ofQuoted_isAll {escaped : Bool} (h : (ofQuoted escaped text).closed = true) :
    (ofQuoted escaped ((ofQuoted escaped text).body ++ ['"'])).IsAll
    (ofQuoted escaped text).body := by
  fun_induction ofQuoted escaped text with
  | case1 => simp [stop] at h
  | case2 escaped c text hc => simp [stop] at h
  | case3 escaped c text hc hq =>
    obtain ⟨rfl, rfl⟩ := hq
    exact ⟨rfl, rfl, rfl⟩
  | case4 escaped c text hc hq ih =>
    have step (rest : List Char) : ofQuoted escaped (c :: rest)
        = (ofQuoted (c = '\\' && !escaped) rest).cons c := by
      rw [ofQuoted, if_neg hc, dif_neg hq]
    change (ofQuoted escaped (c :: ((ofQuoted _ text).body ++ ['"']))).IsAll (c :: _)
    rw [step]
    exact (ih h).cons c

@[inherit_doc ofQuoted_isAll]
theorem ofTripleQuoted_isAll (h : (ofTripleQuoted text).closed = true) :
    (ofTripleQuoted ((ofTripleQuoted text).body ++ ['"', '"', '"'])).IsAll
      (ofTripleQuoted text).body := by
  fun_induction ofTripleQuoted text with
  | case1 => simp [stop] at h
  | case2 c text ih => exact ((ih h).cons c).cons '\\'
  | case3 text => exact ⟨rfl, rfl, rfl⟩
  | case4 c text hescape hclose ih =>
    have whole := (ofTripleQuoted text).body_append_rest
    rw [if_pos (show (ofTripleQuoted text).closed = true from h)] at whole
    change (ofTripleQuoted (c :: ((ofTripleQuoted text).body ++ ['"', '"', '"']))).IsAll (c :: _)
    rw [ofTripleQuoted]
    · exact (ih h).cons c
    · intro d rest hc more
      rw [more] at whole
      exact hescape d _ hc whole.symm
    · intro rest hc more
      rw [more] at whole
      exact hclose _ hc whole.symm

/-- What spells a character is part of the body, unless the character ends the line. -/
theorem ofQuoted_spell {c : Char} (hc : c ≠ '\r') (more : List Char) :
    (ofQuoted false ((Piece.spell c).source ++ more)).closed = (ofQuoted false more).closed
      ∧ (ofQuoted false ((Piece.spell c).source ++ more)).body
        = (Piece.spell c).source ++ (ofQuoted false more).body
      ∧ (ofQuoted false ((Piece.spell c).source ++ more)).rest = (ofQuoted false more).rest := by
  rcases Piece.spell_cases c with ⟨spelled, quote, backslash, feed⟩ | ⟨d, breaks, spelled⟩
  · have step : ofQuoted false (c :: more) = (ofQuoted false more).cons c := by
      rw [ofQuoted, if_neg (by simpa using And.intro feed hc), dif_neg (fun h ↦ quote h.1)]
      simp [backslash]
    rw [spelled]
    change (ofQuoted false (c :: more)).closed = _ ∧ (ofQuoted false (c :: more)).body = _
      ∧ (ofQuoted false (c :: more)).rest = _
    rw [step]
    exact ⟨rfl, rfl, rfl⟩
  · have step : ofQuoted false ('\\' :: d :: more) = ((ofQuoted false more).cons d).cons '\\' := by
      rw [ofQuoted, if_neg (by decide), dif_neg (by decide), ofQuoted, if_neg breaks,
        dif_neg (by simp)]
      simp
    rw [spelled]
    change (ofQuoted false ('\\' :: d :: more)).closed = _
      ∧ (ofQuoted false ('\\' :: d :: more)).body = _
      ∧ (ofQuoted false ('\\' :: d :: more)).rest = _
    rw [step]
    exact ⟨rfl, rfl, rfl⟩

/-- The body that spells a text is all of a string. -/
theorem ofQuoted_spelledBody {text : List Char} (h : '\r' ∉ text) :
    (ofQuoted false (StringLiteral.spelledBody text ++ ['"'])).IsAll
      (StringLiteral.spelledBody text) := by
  induction text with
  | nil => exact ⟨rfl, rfl, rfl⟩
  | cons c text ih =>
    rw [List.mem_cons, not_or] at h
    have all := ih h.2
    change (ofQuoted false ((Piece.spell c).source ++ StringLiteral.spelledBody text
      ++ ['"'])).IsAll
      ((Piece.spell c).source ++ StringLiteral.spelledBody text)
    rw [List.append_assoc]
    obtain ⟨closed, body, rest⟩ :=
      ofQuoted_spell (Ne.symm h.1) (StringLiteral.spelledBody text ++ ['"'])
    exact ⟨closed.trans all.closed, by rw [body, all.body], rest.trans all.rest⟩

/-- A carriage return in a text is written as it is, and the string ends before it. -/
theorem ofQuoted_spelledBody_of_mem {text : List Char} (h : '\r' ∈ text) :
    (ofQuoted false (StringLiteral.spelledBody text ++ ['"'])).closed = false := by
  induction text with
  | nil => simp at h
  | cons c text ih =>
    by_cases hc : c = '\r'
    · rw [hc]
      rfl
    · change (ofQuoted false
        ((Piece.spell c).source ++ StringLiteral.spelledBody text ++ ['"'])).closed = false
      rw [List.append_assoc, (ofQuoted_spell hc _).1]
      exact ih ((List.mem_cons.1 h).resolve_left (Ne.symm hc))

end Tail

/-! ## Lexemes without what follows them -/

namespace Cut

variable {c : Char} {text : List Char}

/-- A closed literal with nothing after it is the only lexeme. -/
theorem ofTail_of_isAll {opener marker : List Char} (hne : opener ≠ []) {t : Tail marker text}
    {body : List Char} (h : t.IsAll body) (closed : List Char → Lexeme) (fault : LexFault) :
    (ofTail opener hne t closed fault).lexeme = closed body
      ∧ (ofTail opener hne t closed fault).rest = [] := by
  simp only [ofTail, h.closed, h.body, h.rest, if_true, and_self]

/-- A literal that is a string is closed, with the body and the quotes that it has. -/
theorem closed_of_quoted {opener marker : List Char} {hne : opener ≠ []} {t : Tail marker text}
    {quotes triple : Bool} {fault : LexFault} {body : List Char}
    (h : (ofTail opener hne t (.quoted quotes) fault).lexeme = .quoted triple body) :
    t.closed = true ∧ quotes = triple ∧ t.body = body := by
  simp only [ofTail] at h
  split at h
  · next closed =>
    injection h with same body
    exact ⟨closed, same, body⟩
  · cases h

/-- A string is a lexeme by itself. -/
theorem first_string {triple : Bool} {body : List Char}
    (h : (first c text).lexeme = .quoted triple body) : ∃ rest,
      StringLiteral.written triple body = '"' :: rest
        ∧ (first '"' rest).lexeme = .quoted triple body ∧ (first '"' rest).rest = [] := by
  unfold first at h
  split at h
  · cases h
  split at h
  · cases h
  split at h
  · cases h
  split at h
  · cases h
  · cases h
  · cases h
  · obtain ⟨closed, rfl, rfl⟩ := closed_of_quoted h
    exact ⟨_, rfl, ofTail_of_isAll (by simp) (Tail.ofTripleQuoted_isAll closed) _ _⟩
  · next notTriple =>
    obtain ⟨closed, rfl, rfl⟩ := closed_of_quoted h
    have whole := (Tail.ofQuoted false text).body_append_rest
    rw [if_pos closed] at whole
    have single (rest : List Char) :
        (Tail.ofQuoted false text).body ++ ['"'] ≠ '"' :: '"' :: rest := by
      intro more
      rw [more] at whole
      exact notTriple _ whole.symm
    refine ⟨(Tail.ofQuoted false text).body ++ ['"'], rfl, ?_⟩
    rw [first_quote single]
    exact ofTail_of_isAll (by simp) (Tail.ofQuoted_isAll closed) _ _
  · exact absurd h (by simp only [ofTail]; split <;> simp)
  · exact absurd h (by simp only [ofTail]; split <;> simp)
  · cases h
  · split at h <;> cases h

/-- What a word starts with starts a name. -/
theorem isNameStart_of_first {reserved : Option Keyword}
    (h : (first c text).lexeme = .word reserved) : isNameStart c = true := by
  unfold first at h
  split at h
  · cases h
  split at h
  · assumption
  split at h
  · cases h
  split at h
  · cases h
  · cases h
  · cases h
  · exact absurd h (by simp only [ofTail]; split <;> simp)
  · exact absurd h (by simp only [ofTail]; split <;> simp)
  · exact absurd h (by simp only [ofTail]; split <;> simp)
  · exact absurd h (by simp only [ofTail]; split <;> simp)
  · cases h
  · split at h <;> cases h

end Cut

/-- A cut that leaves nothing is the only one. -/
theorem lexemes_of_rest {p : Position} {c : Char} {text : List Char}
    (h : (Cut.first c text).rest = []) :
    lexemes p (c :: text)
      = [⟨(Cut.first c text).lexeme, c :: text, ⟨p, p.after (c :: text)⟩⟩] := by
  have whole := (Cut.first c text).taken_append_rest
  rw [h, List.append_nil] at whole
  rw [lexemes, h, whole, lexemes]

/-- A lexeme of a text is the first one of some text. -/
theorem exists_first_of_mem_lexemes {p : Position} {text : List Char} {l : LexemeAt}
    (h : l ∈ lexemes p text) :
    ∃ c rest, (Cut.first c rest).lexeme = l.lexeme ∧ (Cut.first c rest).taken = l.text := by
  obtain ⟨-, c, rest, -, rfl⟩ := exists_cut_of_mem_lexemes h
  exact ⟨c, rest, rfl, rfl⟩

/-- A name does not start with a quote. -/
theorem head?_ne_quote_of_mem {source name : String} {span : Span}
    (h : ⟨.identifier name, span⟩ ∈ visible (tokenize source).tokens) :
    name.toList.head? ≠ some '"' := by
  rw [tokenize, visible_tokenizeChars] at h
  obtain ⟨l, hl, token⟩ := List.mem_filterMap.1 h
  unfold LexemeAt.token? at token
  split at token <;> cases token
  next word =>
  obtain ⟨c, text, cut, taken⟩ := exists_first_of_mem_lexemes hl
  rw [← cut] at word
  have whole := (Cut.first c text).taken_append_rest
  cases first : (Cut.first c text).taken with
  | nil => exact absurd first (Cut.first c text).taken_ne_nil
  | cons d more =>
    rw [first, List.cons_append] at whole
    rw [String.toList_ofList, ← taken, first, (List.cons.inj whole).1]
    intro quote
    have start := Cut.isNameStart_of_first word
    rw [Option.some.inj quote] at start
    exact absurd start (by decide)

private theorem readsAsString_of_lexeme {text : List Char} {triple : Bool} {body : List Char}
    (h : (Cut.first '"' text).lexeme = .quoted triple body) (all : (Cut.first '"' text).rest = []) :
    ReadsAsString (String.ofList ('"' :: text))
      (String.ofList ((Piece.read body).flatMap Piece.value)) := by
  refine ⟨.decode .start triple body, ⟨.start, Position.start.after ('"' :: text)⟩, ?_, rfl⟩
  rw [tokenize, String.toList_ofList, visible_tokenizeChars, lexemes_of_rest all, h]
  rfl

/-- What a string token of a text spans is that string by itself. -/
theorem readsAsString_of_mem {source : String} {literal : StringLiteral} {span : Span}
    (h : ⟨.string literal, span⟩ ∈ visible (tokenize source).tokens) :
    ReadsAsString literal.raw literal.value := by
  rw [tokenize, visible_tokenizeChars] at h
  obtain ⟨l, hl, token⟩ := List.mem_filterMap.1 h
  unfold LexemeAt.token? at token
  split at token <;> cases token
  next triple body quoted =>
  obtain ⟨c, text, cut, -⟩ := exists_first_of_mem_lexemes hl
  rw [← cut] at quoted
  obtain ⟨rest, written, lexeme, all⟩ := Cut.first_string quoted
  have reads := readsAsString_of_lexeme lexeme all
  rwa [← written] at reads

/-- The body that spells a text does not start with a quote. -/
theorem spelledBody_ne_quote (text rest : List Char) :
    StringLiteral.spelledBody text ++ ['"'] ≠ '"' :: '"' :: rest := by
  cases text with
  | nil => simp [StringLiteral.spelledBody]
  | cons c text =>
    change (Piece.spell c).source ++ StringLiteral.spelledBody text ++ ['"'] ≠ _
    rcases Piece.spell_cases c with ⟨spelled, quote, -⟩ | ⟨d, -, spelled⟩
    · simp [spelled, Piece.source, quote]
    · simp [spelled, Piece.source]

/-- The literal that is made for a text reads as that text exactly if it has no carriage return. -/
theorem readsAsString_ofText_iff (text : String) :
    ReadsAsString (StringLiteral.ofText text).raw text ↔ '\r' ∉ text.toList := by
  have raw : (StringLiteral.ofText text).raw
      = String.ofList ('"' :: (StringLiteral.spelledBody text.toList ++ ['"'])) := rfl
  have first := Cut.first_quote (spelledBody_ne_quote text.toList)
  rw [raw]
  constructor
  · rintro ⟨literal, span, tokens, -⟩ member
    have lexeme : (Cut.first '"' (StringLiteral.spelledBody text.toList ++ ['"'])).lexeme
        = .faulty .unterminatedString := by
      rw [first]
      exact if_neg (by simp [Tail.ofQuoted_spelledBody_of_mem member])
    rw [tokenize, String.toList_ofList, visible_tokenizeChars, lexemes] at tokens
    simp [LexemeAt.token?, lexeme] at tokens
  · intro plain
    have all := Cut.ofTail_of_isAll (List.cons_ne_nil '"' []) (Tail.ofQuoted_spelledBody plain)
      (.quoted false) .unterminatedString
    rw [← first] at all
    have reads := readsAsString_of_lexeme all.1 all.2
    rwa [StringLiteral.spelledBody, Piece.value_read_spell, String.ofList_toList] at reads

end ProseLang
