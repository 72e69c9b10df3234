import ProseLang.Proofs.Token.Names
import ProseLang.Proofs.Token.Origins
import ProseLang.Proofs.Token.Strings

/-!
# Braces in strings

An opening brace in the body of a string starts an interpolated name, or it is literal text. What is
before it has no say in this: the body is read up to the brace and from there on, unless a backslash
takes the brace along (`Piece.splitsAtBrace`). A name starts there exactly if the text up to the
next closing brace is tokenized by itself as that name, or passes for one: reserved words do, and
texts with a hyphen that no part of a name follows (`braces_tokenize`).
-/

namespace ProseLang

variable {c : Char} {text : List Char}

/-! ## Texts that are one name -/

/-- Whether a text by itself is tokenized as a name at the end of a line, and nothing else. -/
def TokenizesAsName (text name : String) : Prop :=
  (tokenize text).tokens.map Token.kind = [.identifier name, .newline, .endOfFile]

/-- Whether a text has a hyphen at its end or before another hyphen. -/
def HasLooseHyphen (text : List Char) : Prop := ['-'] <:+ text ∨ ['-', '-'] <:+: text

/-- Whether a text between braces passes for a name although it is none: it is reserved, or it is
made of the characters of a name but has a loose hyphen. -/
def PassesForName (text : List Char) : Prop :=
  isKeyword (String.ofList text) = true
    ∨ (text.head?.any isNameStart = true ∧ ∀ d ∈ text, isNameChar d = true ∨ d = '-')
      ∧ HasLooseHyphen text

private theorem isHoleName_iff (text : List Char) : isHoleName text = true ↔
    text.head?.any isNameStart = true ∧ ∀ d ∈ text, isNameChar d = true ∨ d = '-' := by
  cases text with
  | nil => simp [isHoleName]
  | cons c text =>
    have first (start : isNameStart c = true) : isNameChar c = true ∨ c = '-' :=
      .inl (isNameChar_of_isNameStart start)
    simp only [isHoleName, Bool.and_eq_true, List.all_eq_true, Bool.or_eq_true, decide_eq_true_eq,
      List.head?_cons, Option.any_some, List.forall_mem_cons]
    constructor
    · rintro ⟨start, others⟩
      exact ⟨start, first start, others⟩
    · rintro ⟨start, -, others⟩
      exact ⟨start, others⟩

private theorem hasLooseHyphen_cons_iff : HasLooseHyphen (c :: text) ↔
    (c = '-' ∧ text.head?.all (· = '-') = true) ∨ HasLooseHyphen text := by
  rw [HasLooseHyphen, HasLooseHyphen, List.suffix_cons_iff, List.infix_cons_iff]
  cases text with
  | nil => simpa using eq_comm
  | cons d text =>
    have first : ['-', '-'] <+: c :: d :: text ↔ c = '-' ∧ d = '-' := by simp [eq_comm]
    have last : ¬['-'] = c :: d :: text := by simp
    rw [first, List.head?_cons, Option.all_some, decide_eq_true_eq]
    grind

private theorem HasLooseHyphen.cons (h : HasLooseHyphen text) (c : Char) :
    HasLooseHyphen (c :: text) :=
  hasLooseHyphen_cons_iff.2 (.inr h)

/-- A name character in front makes no hyphen loose. -/
theorem not_hasLooseHyphen_cons (hc : isNameChar c = true) (h : ¬HasLooseHyphen text) :
    ¬HasLooseHyphen (c :: text) := by
  rw [hasLooseHyphen_cons_iff]
  rintro (⟨rfl, -⟩ | loose)
  · cases hc
  · exact h loose

/-- What continues a name has no loose hyphen. -/
theorem not_hasLooseHyphen_ofName (text : List Char) :
    ¬HasLooseHyphen (Parts.ofName text).taken := by
  have nil : ¬HasLooseHyphen [] := by simp [HasLooseHyphen]
  fun_induction Parts.ofName text with
  | case1 => exact nil
  | case2 c hc => exact not_hasLooseHyphen_cons hc nil
  | case3 c hc => exact nil
  | case4 c d text hc ih => exact not_hasLooseHyphen_cons hc ih
  | case5 c d text hc hd ih =>
    obtain ⟨-, hd⟩ := Bool.and_eq_true_iff.1 hd
    change ¬HasLooseHyphen (c :: d :: (Parts.ofName text).taken)
    rw [hasLooseHyphen_cons_iff]
    rintro (⟨-, next⟩ | loose)
    · obtain rfl : d = '-' := by simpa using next
      cases hd
    · exact not_hasLooseHyphen_cons hd ih loose
  | case6 c d text hc hd => exact nil

/-- Where a name does not take in all of some name characters and hyphens, it stops at a loose
hyphen. -/
theorem hasLooseHyphen_of_rest (chars : ∀ d ∈ text, isNameChar d = true ∨ d = '-')
    (rest : (Parts.ofName text).rest ≠ []) : HasLooseHyphen text := by
  fun_induction Parts.ofName text with
  | case1 => exact absurd rfl rest
  | case2 c hc => exact absurd rfl rest
  | case3 c hc =>
    obtain rfl := (List.forall_mem_singleton.1 chars).resolve_left hc
    exact .inl List.suffix_rfl
  | case4 c d text hc ih => exact (ih (List.forall_mem_cons.1 chars).2 rest).cons c
  | case5 c d text hc hd ih =>
    have inner := (List.forall_mem_cons.1 (List.forall_mem_cons.1 chars).2).2
    exact ((ih inner rest).cons d).cons c
  | case6 c d text hc hd =>
    obtain ⟨first, others⟩ := List.forall_mem_cons.1 chars
    obtain rfl := first.resolve_left hc
    obtain rfl := (List.forall_mem_cons.1 others).1.resolve_left (by simpa using hd)
    exact .inr (List.prefix_append ['-', '-'] text).isInfix

/-- Every name in a text could be interpolated, and has no loose hyphen. -/
theorem isHoleName_of_identifier {source name : String} {span : Span}
    (h : ⟨.identifier name, span⟩ ∈ visible (tokenize source).tokens) :
    isHoleName name.toList = true ∧ ¬HasLooseHyphen name.toList := by
  rw [tokenize, visible_tokenizeChars] at h
  obtain ⟨l, hl, token⟩ := List.mem_filterMap.1 h
  unfold LexemeAt.token? at token
  split at token <;> cases token
  next word =>
  obtain ⟨c, text, cut, taken⟩ := exists_first_of_mem_lexemes hl
  rw [← cut] at word
  have start := Cut.isNameStart_of_first word
  rw [Cut.first_name (not_isBlank_of_isNameStart start) start] at taken
  change c :: (Parts.ofName text).taken = l.text at taken
  have first := isNameChar_of_isNameStart start
  rw [String.toList_ofList, ← taken, isHoleName_iff]
  refine ⟨⟨start, List.forall_mem_cons.2 ⟨.inl first, fun d hd ↦ ?_⟩⟩, ?_⟩
  · exact Parts.isNameChar_of_mem_ofName hd
  · exact not_hasLooseHyphen_cons first (not_hasLooseHyphen_ofName text)

/-- A text that is tokenized as a name has a token for it and no other. -/
theorem TokenizesAsName.exists_span {text name : String} (h : TokenizesAsName text name) :
    ∃ span, visible (tokenize text).tokens = [⟨.identifier name, span⟩] := by
  unfold TokenizesAsName at h
  match tokens : (tokenize text).tokens with
  | [] | [_] | [_, _] | _ :: _ :: _ :: _ :: _ => simp [tokens] at h
  | [⟨first, span⟩, ⟨second, _⟩, ⟨third, _⟩] =>
    simp only [tokens, List.map_cons, List.map_nil, List.cons.injEq, and_true] at h
    obtain ⟨rfl, rfl, rfl⟩ := h
    exact ⟨span, rfl⟩

/-- A text that is tokenized as a name is that name with gaps around it. -/
theorem TokenizesAsName.exists_gaps {text name : String} (h : TokenizesAsName text name) :
    ∃ before after, text.toList = before ++ name.toList ++ after
      ∧ isGap before = true ∧ isGap after = true := by
  obtain ⟨span, shown⟩ := h.exists_span
  have covers := covers_lexemes .start text.toList
  rw [← visible_tokenizeChars] at covers
  change Covers .start text.toList (visible (tokenize text).tokens) at covers
  rw [shown] at covers
  generalize text.toList = chars at covers
  -- the one token has a gap before it, and no token behind it leaves a gap there too
  cases covers with
  | @token _ before taken after _ _ gap _ written others =>
    cases others with
    | gap _ last =>
      obtain rfl : name.toList = taken := written name rfl
      exact ⟨before, after, rfl, gap, last⟩

private theorem not_isNameChar_of_isGap (h : isGap (c :: text) = true) :
    ¬(isNameChar c = true ∨ c = '-') := by
  have blank {d : Char} (hd : (isBlank d || d = '\n') = true) :
    ¬(isNameChar d = true ∨ d = '-') := by
    simp only [isBlank, Bool.or_eq_true, decide_eq_true_eq] at hd
    rcases hd with ((rfl | rfl) | rfl) | rfl <;> decide
  unfold isGap at h
  split at h
  · next same => exact absurd same (List.cons_ne_nil c text)
  · next same =>
    obtain ⟨rfl, -⟩ := List.cons.inj same
    decide
  · next same =>
    obtain ⟨rfl, -⟩ := List.cons.inj same
    exact blank (Bool.and_eq_true_iff.1 h).1

private theorem eq_nil_of_isGap (h : isGap text = true)
    (chars : ∀ d ∈ text, isNameChar d = true ∨ d = '-') : text = [] := by
  cases text with
  | nil => rfl
  | cons c text => exact absurd (chars c List.mem_cons_self) (not_isNameChar_of_isGap h)

/-- A text without gaps is tokenized as no name but itself. -/
theorem TokenizesAsName.eq_of_isHoleName {text name : String} (h : TokenizesAsName text name)
    (made : isHoleName text.toList = true) : text = name := by
  obtain ⟨before, after, whole, first, last⟩ := h.exists_gaps
  have chars := ((isHoleName_iff _).1 made).2
  rw [whole, List.forall_mem_append, List.forall_mem_append] at chars
  rw [eq_nil_of_isGap first chars.1.1, eq_nil_of_isGap last chars.2, List.nil_append,
    List.append_nil] at whole
  exact String.toList_injective whole

/-- A reserved word by itself is tokenized as that word. -/
theorem kinds_tokenize_keyword (word : Keyword) :
    (tokenize word.text).tokens.map Token.kind = [.keyword word, .newline, .endOfFile] := by
  cases word <;> decide +kernel

private theorem PassesForName.isHoleName (h : PassesForName text) : isHoleName text = true := by
  rcases h with reserved | ⟨made, -⟩
  · obtain ⟨word, found⟩ := Option.isSome_iff_exists.1 reserved
    have same := congrArg String.toList (Keyword.text_of_ofText? found)
    rw [String.toList_ofList] at same
    rw [← same]
    cases word <;> decide
  · exact (isHoleName_iff text).2 made

/-- What passes for a name is not tokenized as one. -/
theorem PassesForName.not_tokenizesAsName (h : PassesForName text) (name : String) :
    ¬TokenizesAsName (String.ofList text) name := by
  intro tokenized
  obtain rfl := tokenized.eq_of_isHoleName (by rw [String.toList_ofList]; exact h.isHoleName)
  rcases h with reserved | ⟨-, loose⟩
  · obtain ⟨word, found⟩ := Option.isSome_iff_exists.1 reserved
    have kinds := kinds_tokenize_keyword word
    rw [Keyword.text_of_ofText? found] at kinds
    cases kinds.symm.trans tokenized
  · obtain ⟨span, shown⟩ := tokenized.exists_span
    have tight := (isHoleName_of_identifier (shown ▸ List.mem_singleton_self _)).2
    rw [String.toList_ofList] at tight
    exact tight loose

/-- A text is taken for a name between braces exactly if it is one by itself or passes for one. -/
theorem isHoleName_iff_name (text : List Char) : isHoleName text = true ↔
    TokenizesAsName (String.ofList text) (String.ofList text) ∨ PassesForName text := by
  constructor
  · intro made
    obtain ⟨start, chars⟩ := (isHoleName_iff text).1 made
    cases text with
    | nil => cases start
    | cons c text =>
      by_cases rest : (Parts.ofName text).rest = []
      · cases free : Keyword.ofText? (String.ofList (c :: text)) with
        | none =>
          left
          rw [TokenizesAsName, tokenize, String.toList_ofList, tokenizeChars,
            lexemes_of_name start rest free]
          rfl
        | some word => exact .inr (.inl (by rw [isKeyword, free, Option.isSome_some]))
      · have loose := hasLooseHyphen_of_rest (List.forall_mem_cons.1 chars).2 rest
        exact .inr (.inr ⟨⟨start, chars⟩, loose.cons c⟩)
  · rintro (name | passes)
    · obtain ⟨span, shown⟩ := name.exists_span
      have made := (isHoleName_of_identifier (shown ▸ List.mem_singleton_self _)).1
      rwa [String.toList_ofList] at made
    · exact passes.isHoleName

/-! ## Bodies read in two parts -/

/-- The text up to the next closing brace. -/
def upToBrace (body : List Char) : List Char := body.takeWhile (· ≠ '\x7d')

/-- Whether a name and a closing brace come next. -/
def HoleFollows (body : List Char) : Prop := '\x7d' ∈ body ∧ isHoleName (upToBrace body) = true

private theorem takeWhile_brace {name : List Char} (h : '\x7d' ∉ name) (rest : List Char) :
    (name ++ '\x7d' :: rest).takeWhile (· ≠ '\x7d') = name
      ∧ (name ++ '\x7d' :: rest).dropWhile (· ≠ '\x7d') = '\x7d' :: rest := by
  have other : ∀ d ∈ name, decide (d ≠ '\x7d') = true := fun d hd ↦ by
    rw [decide_eq_true_eq]
    rintro rfl
    exact h hd
  rw [List.takeWhile_append_of_pos other, List.dropWhile_append_of_pos other]
  simp

private theorem upToBrace_append {name : List Char} (h : '\x7d' ∉ name) (rest : List Char) :
    upToBrace (name ++ '\x7d' :: rest) = name :=
  (takeWhile_brace h rest).1

/-- A name and a closing brace are found exactly where they come next. -/
theorem holeName?_eq_some_iff {body name rest : List Char} :
    holeName? body = some (name, rest) ↔ body = name ++ '\x7d' :: rest
      ∧ isHoleName name = true := by
  constructor
  · intro found
    refine ⟨?_, isHoleName_of_holeName? found⟩
    have whole := List.takeWhile_append_dropWhile (p := (· ≠ '\x7d')) (l := body)
    unfold holeName? at found
    split at found
    · next d more dropped =>
      have first : (body.dropWhile (· ≠ '\x7d')).head? = some d := by rw [dropped, List.head?_cons]
      obtain rfl : d = '\x7d' := by simpa using head_dropWhile first
      dsimp only at found
      split at found <;> cases found
      rw [dropped] at whole
      exact whole.symm
    · cases found
  · rintro ⟨rfl, made⟩
    obtain ⟨taken, dropped⟩ := takeWhile_brace (not_mem_of_isHoleName made (by decide)) rest
    simp only [holeName?, taken, dropped, if_pos made]

private theorem holeFollows_iff (body : List Char) :
    HoleFollows body ↔ ∃ rest, holeName? body = some (upToBrace body, rest) := by
  constructor
  · rintro ⟨member, made⟩
    obtain ⟨name, rest, rfl, other⟩ := List.eq_append_cons_of_mem member
    rw [upToBrace_append other] at made ⊢
    exact ⟨rest, holeName?_eq_some_iff.2 ⟨rfl, made⟩⟩
  · rintro ⟨rest, found⟩
    obtain ⟨whole, made⟩ := holeName?_eq_some_iff.1 found
    exact ⟨whole ▸ List.mem_append_right _ List.mem_cons_self, made⟩

namespace Piece

/-- An escape is read as one, whatever follows it. -/
theorem read_escape (c : Char) (rest : List Char) :
    read ((escape c).source ++ rest) = escape c :: read rest := by
  change read ('\\' :: c :: rest) = _
  rw [read]

private theorem source_hole_append (name rest : List Char) :
    (hole name).source ++ rest = '\x7b' :: (name ++ '\x7d' :: rest) := by
  simp [source]

/-- A name in braces is read as one, whatever follows it. -/
theorem read_hole {name : List Char} (made : isHoleName name = true) (rest : List Char) :
    read ((hole name).source ++ rest) = hole name :: read rest := by
  have found : holeName? (name ++ '\x7d' :: rest) = some (name, rest) :=
    holeName?_eq_some_iff.2 ⟨rfl, made⟩
  rw [source_hole_append, read, if_pos rfl]
  · split
    · next same =>
      cases found.symm.trans same
      rfl
    · next absent => cases found.symm.trans absent
  · intro d more slash
    exact absurd slash (by decide)

/-- A character is read as itself if it starts neither an escape nor a name in braces. -/
theorem read_plain {c : Char} {rest : List Char} (unescaped : c = '\\' → rest = [])
    (other : c = '\x7b' → holeName? rest = none) :
    read ((plain c).source ++ rest) = plain c :: read rest := by
  change read (c :: rest) = _
  rw [read]
  · split
    · next brace =>
      split
      · next found => cases found.symm.trans (other brace)
      · rw [brace]
    · rfl
  · rintro d more slash rfl
    cases unescaped slash

/-- An opening brace starts a name in braces if one follows, and stands for itself otherwise. -/
theorem read_brace (right : List Char) :
    (HoleFollows right ∧ ∃ more, read ('\x7b' :: right) = hole (upToBrace right) :: more)
      ∨ ¬HoleFollows right ∧ read ('\x7b' :: right) = plain '\x7b' :: read right := by
  by_cases follows : HoleFollows right
  · obtain ⟨rest, found⟩ := (holeFollows_iff right).1 follows
    obtain ⟨whole, made⟩ := holeName?_eq_some_iff.1 found
    have reads := read_hole made rest
    rw [source_hole_append, ← whole] at reads
    exact .inl ⟨follows, read rest, reads⟩
  · refine .inr ⟨follows, read_plain nofun fun _ ↦ ?_⟩
    refine Option.eq_none_iff_forall_ne_some.2 fun ⟨name, rest⟩ found ↦ follows ?_
    obtain ⟨rfl, made⟩ := holeName?_eq_some_iff.1 found
    rw [holeFollows_iff, upToBrace_append (not_mem_of_isHoleName made (by decide))]
    exact ⟨rest, found⟩

/-- A name in braces does not go on over another opening brace. -/
theorem holeName?_append_brace {left : List Char} (absent : holeName? left = none)
    (right : List Char) : holeName? (left ++ '\x7b' :: right) = none := by
  refine Option.eq_none_iff_forall_ne_some.2 fun ⟨name, rest⟩ found ↦ ?_
  obtain ⟨whole, made⟩ := holeName?_eq_some_iff.1 found
  rcases List.append_eq_append_iff.1 whole with ⟨inside, rfl, split⟩ | ⟨_ | ⟨d, inside⟩, rfl, split⟩
  · cases inside with
    | nil => cases split
    | cons d inside =>
      obtain ⟨rfl, -⟩ := List.cons.inj split
      exact not_mem_of_isHoleName made (by decide) (List.mem_append_right left List.mem_cons_self)
  · cases split
  · obtain ⟨rfl, -⟩ := List.cons.inj split
    cases absent.symm.trans (holeName?_eq_some_iff.2 ⟨rfl, made⟩)

/-- Whether a body with an opening brace in it reads in two parts, up to the brace and from there
on, or a backslash takes the brace along. -/
def SplitsAtBrace (left right : List Char) : Prop :=
  read (left ++ '\x7b' :: right) = read left ++ read ('\x7b' :: right)
    ∨ ∃ before after, left = before.flatMap source ++ ['\\']
      ∧ read (left ++ '\x7b' :: right) = before ++ escape '\x7b' :: after

/-- A piece in front changes nothing if it is read as one with and without the brace. -/
theorem SplitsAtBrace.cons {x : Piece} {left right : List Char} (h : SplitsAtBrace left right)
    (alone : read (x.source ++ left) = x :: read left)
    (within : read (x.source ++ (left ++ '\x7b' :: right)) = x :: read (left ++ '\x7b' :: right)) :
    SplitsAtBrace (x.source ++ left) right := by
  rw [SplitsAtBrace, List.append_assoc, within, alone]
  rcases h with reads | ⟨before, after, rfl, reads⟩
  · exact .inl (by rw [reads, List.cons_append])
  · refine .inr ⟨x :: before, after, ?_, by rw [reads, List.cons_append]⟩
    rw [List.flatMap_cons, List.append_assoc]

/-- What is before an opening brace has no say in how the rest is read, but for a backslash. -/
theorem splitsAtBrace (left right : List Char) : SplitsAtBrace left right := by
  -- along the pieces before the brace: each is read as before, since no name goes on over a brace
  fun_induction read left with
  | case1 => exact .inl (by rw [read, List.nil_append, List.nil_append])
  | case2 c rest ih => exact ih.cons (read_escape c _) (read_escape c _)
  | case3 rest name rest' found _ _ ih =>
    obtain ⟨rfl, made⟩ := holeName?_eq_some_iff.1 found
    have split := ih.cons (read_hole made _) (read_hole made _)
    rwa [source_hole_append] at split
  | case4 rest absent _ ih =>
    have brace : '\x7b' ≠ '\\' := by decide
    exact ih.cons (read_plain (absurd · brace) fun _ ↦ absent)
      (read_plain (absurd · brace) fun _ ↦ holeName?_append_brace absent right)
  | case5 c rest escape other ih =>
    by_cases slash : c = '\\'
    · have last : rest = [] := by
        cases rest with
        | nil => rfl
        | cons d rest => exact absurd rfl (escape d rest slash)
      -- a backslash with nothing behind it, so that the brace comes next
      rw [slash, last]
      exact .inr ⟨[], read right, rfl, read_escape '\x7b' right⟩
    · exact ih.cons (read_plain (absurd · slash) (absurd · other))
        (read_plain (absurd · slash) (absurd · other))

/-! ## Where pieces are -/

private theorem locate_append (p : Position) (xs ys : List Piece) :
    locate p (xs ++ ys) = locate p xs ++ locate (p.after (xs.flatMap source)) ys := by
  induction xs generalizing p with
  | nil => rfl
  | cons x xs ih =>
    rw [List.cons_append, locate, ih, locate, List.flatMap_cons, Position.after_append,
      List.cons_append]

private theorem source_ne_nil (x : Piece) : x.source ≠ [] := by
  cases x <;> exact List.cons_ne_nil _ _

/-- A piece starts where those before it end. -/
theorem mem_locate_append_cons (p : Position) (before : List Piece) (x : Piece)
    (after : List Piece) :
    (x, ⟨p.after (before.flatMap source), p.after (before.flatMap source ++ x.source)⟩)
      ∈ locate p (before ++ x :: after) := by
  rw [locate_append, locate, Position.after_append]
  exact List.mem_append_right _ List.mem_cons_self

/-- Pieces that start at the same place are the same. -/
theorem eq_of_mem_locate {p : Position} {xs : List Piece} {x y : Piece × Span}
    (hx : x ∈ locate p xs) (hy : y ∈ locate p xs)
    (same : x.2.start.offset = y.2.start.offset) : x = y := by
  have filled : ∀ z ∈ locate p xs, z.2.start.offset < z.2.stop.offset := fun z hz ↦ by
    obtain ⟨before, after, -, place⟩ := span_of_mem_locate (x := z.1) (s := z.2) hz
    have room := utf8Length_pos z.1.source_ne_nil
    rw [place]
    simp only [Position.offset_after, utf8Length_append]
    omega
  have differ : (locate p xs).Pairwise fun a b ↦ a.2.start.offset ≠ b.2.start.offset :=
    (ordered_locate p xs).imp_of_mem fun ha hb before ↦ by
      have := filled _ ha
      omega
  have symm : Std.Symm fun a b : Piece × Span ↦ a.2.start.offset ≠ b.2.start.offset :=
    ⟨fun _ _ ↦ Ne.symm⟩
  by_contra other
  exact differ.forall hx hy other same

end Piece

namespace Segment

/-- Whether a character is literal text among segments that render to `before` up to it. -/
def ShowsAfter (segments : List Segment) (before : List Char) (c : Char) : Prop :=
  ∃ earlier opening closing later,
    segments = earlier ++ .text (String.ofList (opening ++ c :: closing)) :: later
      ∧ earlier.flatMap rendered ++ opening = before

variable {segments : List Segment} {before : List Char}

private theorem hole_mem_consText {t : List Char} {name : String} {span : Span}
    (h : hole name span ∈ segments) : hole name span ∈ consText t segments := by
  unfold consText
  split
  · next more later =>
    rcases List.mem_cons.1 h with same | h
    · cases same
    · exact List.mem_cons_of_mem _ h
  · exact List.mem_cons_of_mem _ h

private theorem showsAfter_consText (c : Char) (segments : List Segment) :
    ShowsAfter (consText [c] segments) [] c := by
  unfold consText
  split
  · next rest later =>
    refine ⟨[], [], rest.toList, later, ?_, rfl⟩
    change text (String.ofList [c] ++ rest) :: later
      = text (String.ofList ([c] ++ rest.toList)) :: later
    rw [String.ofList_append, String.ofList_toList]
  · exact ⟨[], [], [], segments, rfl, rfl⟩

private theorem ShowsAfter.consText (h : ShowsAfter segments before c) (t : List Char) :
    ShowsAfter (consText t segments) (t ++ before) c := by
  obtain ⟨_ | ⟨_ | ⟨name, span⟩, earlier⟩, opening, closing, later, rfl, rfl⟩ := h
  · refine ⟨[], t ++ opening, closing, later, ?_, rfl⟩
    simp [Segment.consText, String.ofList_append]
  · next more =>
    refine ⟨.text (String.ofList t ++ more) :: earlier, opening, closing, later, rfl, ?_⟩
    simp [rendered]
  · refine ⟨.text (String.ofList t) :: .hole name span :: earlier, opening, closing, later, rfl, ?_⟩
    simp [rendered]

private theorem ShowsAfter.hole (h : ShowsAfter segments before c) (name : List Char)
    (span : Span) :
    ShowsAfter (hole (String.ofList name) span :: segments) ((Piece.hole name).value ++ before)
    c := by
  obtain ⟨earlier, opening, closing, later, rfl, rfl⟩ := h
  refine ⟨.hole (String.ofList name) span :: earlier, opening, closing, later, rfl, ?_⟩
  simp [rendered, holeText, Piece.value]

/-- A character that stands for itself is literal text. -/
theorem showsAfter_ofPieces (p : Position) (before : List Piece) (c : Char) (after : List Piece) :
    ShowsAfter (ofPieces (Piece.locate p (before ++ .plain c :: after)))
      (before.flatMap Piece.value) c := by
  induction before generalizing p with
  | nil => exact showsAfter_consText c _
  | cons x before ih =>
    rw [List.cons_append, List.flatMap_cons, Piece.locate]
    cases x with
    | plain d => exact (ih _).consText _
    | escape d => exact (ih _).consText _
    | hole name => exact (ih _).hole name _

end Segment

namespace StringLiteral

variable {start : Position} {triple : Bool} {body : List Char}

/-- A name in braces is an interpolated name. -/
theorem mem_holes_of_piece {name : List Char} {span : Span}
    (h : (.hole name, span) ∈ Piece.locate (start.after (quotes triple)) (Piece.read body)) :
    (String.ofList name, span) ∈ (decode start triple body).holes := by
  refine List.mem_filterMap.2 ⟨.hole (String.ofList name) span, ?_, rfl⟩
  change _ ∈ Segment.ofPieces _
  generalize Piece.locate _ _ = pieces at h
  fun_induction Segment.ofPieces pieces with
  | case1 => cases h
  | case2 other place pieces ih =>
    rcases List.mem_cons.1 h with same | h
    · cases same
      exact List.mem_cons_self
    · exact List.mem_cons_of_mem _ (ih h)
  | case3 piece place pieces noHole ih =>
    rcases List.mem_cons.1 h with same | h
    · cases same
      exact absurd rfl (noHole name)
    · exact Segment.hole_mem_consText (ih h)

/-- An escape that is read is recorded. -/
theorem exists_escape_of_piece {c : Char} {span : Span}
    (h : (.escape c, span) ∈ Piece.locate (start.after (quotes triple)) (Piece.read body)) :
    ∃ e ∈ (decode start triple body).escapes, e.span = span :=
  ⟨_, List.mem_filterMap.2 ⟨_, h, rfl⟩, rfl⟩

/-- Whether no escape and no interpolated name of a literal goes on over a place. -/
def IsFree (literal : StringLiteral) (offset : Nat) : Prop :=
  ∀ m ∈ literal.marks, ¬(m.2.start.offset < offset ∧ offset < m.2.stop.offset)

/-- Whether an interpolated name of a literal starts at a place. -/
def InterpolatesAt (literal : StringLiteral) (offset : Nat) : Prop :=
  ∃ hole ∈ literal.holes, hole.2.start.offset = offset

instance (literal : StringLiteral) (offset : Nat) : Decidable (literal.IsFree offset) :=
  inferInstanceAs (Decidable (∀ m ∈ literal.marks, _))

instance (literal : StringLiteral) (offset : Nat) : Decidable (literal.InterpolatesAt offset) :=
  inferInstanceAs (Decidable (∃ hole ∈ literal.holes, _))

/-- What an opening brace at `place` in the body of a literal is read as, with `left` before it and
`right` behind. -/
structure ReadsBrace (literal : StringLiteral) (place : Position) (left right : List Char) :
    Prop where
  /-- A name starts there exactly if the text up to the next closing brace is a name or passes for
  one. -/
  interpolates_iff : literal.InterpolatesAt place.offset ↔
    '\x7d' ∈ right
      ∧ (TokenizesAsName (String.ofList (upToBrace right)) (String.ofList (upToBrace right))
        ∨ PassesForName (upToBrace right))
  /-- What passes for a name is not tokenized as one. -/
  passes : PassesForName (upToBrace right) →
    ∀ name, ¬TokenizesAsName (String.ofList (upToBrace right)) name
  /-- A text that is tokenized as a name is interpolated only as a whole, without gaps around the
  name. -/
  whole : ∀ name, '\x7d' ∈ right → TokenizesAsName (String.ofList (upToBrace right)) name →
    (literal.InterpolatesAt place.offset ↔ String.ofList (upToBrace right) = name)
  /-- The name is what stands between the two braces. -/
  named : ∀ hole ∈ literal.holes, hole.2.start.offset = place.offset →
    hole = (String.ofList (upToBrace right), ⟨place, place.after (holeText hole.1)⟩)
  /-- A brace that starts no name is literal text. -/
  shown : ¬literal.InterpolatesAt place.offset →
    Segment.ShowsAfter literal.segments ((Piece.read left).flatMap Piece.value) '\x7b'

/-- A free brace is the start of a piece. -/
theorem read_of_isFree {left right : List Char}
    (free : (decode start triple (left ++ '\x7b' :: right)).IsFree
      (start.after (quotes triple ++ left)).offset) :
    Piece.read (left ++ '\x7b' :: right) = Piece.read left ++ Piece.read ('\x7b' :: right) := by
  refine (Piece.splitsAtBrace left right).resolve_right ?_
  rintro ⟨before, after, rfl, reads⟩
  -- the backslash and the brace are an escape, which starts just before the brace
  have piece := Piece.mem_locate_append_cons (start.after (quotes triple)) before
    (.escape '\x7b') after
  rw [← reads] at piece
  obtain ⟨e, member, place⟩ := exists_escape_of_piece piece
  refine free (e.sequence.toList, e.span) (List.mem_append_left _ (List.mem_map_of_mem member)) ?_
  rw [place]
  simp only [Position.offset_after, utf8Length_append, Piece.source, utf8Length_cons,
    utf8Length_nil]
  have backslash : ('\\' : Char).utf8Size = 1 := by decide
  have brace : ('\x7b' : Char).utf8Size = 1 := by decide
  omega

/-- The piece after what is read of the start of a body stands where that ends. -/
theorem mem_locate_of_read {left : List Char} {x : Piece} {more : List Piece}
    (reads : Piece.read body = Piece.read left ++ x :: more) :
    (x, ⟨start.after (quotes triple ++ left), start.after (quotes triple ++ left ++ x.source)⟩)
      ∈ Piece.locate (start.after (quotes triple)) (Piece.read body) := by
  have piece := Piece.mem_locate_append_cons (start.after (quotes triple)) (Piece.read left) x more
  rw [← reads, Piece.source_read] at piece
  simpa only [Position.after_append] using piece

/-- An interpolated name that starts where a piece does is that piece. -/
theorem eq_of_mem_holes {x : Piece} {s : Span}
    (piece : (x, s) ∈ Piece.locate (start.after (quotes triple)) (Piece.read body))
    {hole : String × Span} (h : hole ∈ (decode start triple body).holes)
    (same : hole.2.start.offset = s.start.offset) : .hole hole.1.toList = x ∧ hole.2 = s :=
  Prod.mk.inj (Piece.eq_of_mem_locate (hole_piece_of_mem_holes h) piece same)

section Brace

variable {left right : List Char}
  (free : (decode start triple (left ++ '\x7b' :: right)).IsFree
    (start.after (quotes triple ++ left)).offset)

include free

/-- What the piece at a free brace is. -/
theorem exists_piece_of_isFree : ∃ x,
    (x, ⟨start.after (quotes triple ++ left), start.after (quotes triple ++ left ++ x.source)⟩)
        ∈ Piece.locate (start.after (quotes triple)) (Piece.read (left ++ '\x7b' :: right))
      ∧ (HoleFollows right ∧ x = .hole (upToBrace right)
        ∨ ¬HoleFollows right ∧ x = .plain '\x7b') := by
  have reads := read_of_isFree free
  rcases Piece.read_brace right with ⟨follows, more, first⟩ | ⟨plain, first⟩ <;> rw [first] at reads
  · exact ⟨_, mem_locate_of_read reads, .inl ⟨follows, rfl⟩⟩
  · exact ⟨_, mem_locate_of_read reads, .inr ⟨plain, rfl⟩⟩

private theorem interpolatesAt_iff_holeFollows :
    (decode start triple (left ++ '\x7b' :: right)).InterpolatesAt
      (start.after (quotes triple ++ left)).offset ↔ HoleFollows right := by
  obtain ⟨x, piece, ⟨follows, rfl⟩ | ⟨plain, rfl⟩⟩ := exists_piece_of_isFree free
  · exact iff_of_true ⟨_, mem_holes_of_piece piece, rfl⟩ follows
  · refine iff_of_false ?_ plain
    rintro ⟨hole, member, place⟩
    cases (eq_of_mem_holes piece member place).1

/-- How a free brace is read. -/
theorem readsBrace_of_isFree : (decode start triple (left ++ '\x7b' :: right)).ReadsBrace
    (start.after (quotes triple ++ left)) left right where
  interpolates_iff :=
    (interpolatesAt_iff_holeFollows free).trans (and_congr_right fun _ ↦ isHoleName_iff_name _)
  passes := PassesForName.not_tokenizesAsName
  whole := by
    intro name closed tokenized
    rw [interpolatesAt_iff_holeFollows free]
    constructor
    · rintro ⟨-, made⟩
      exact tokenized.eq_of_isHoleName (by rwa [String.toList_ofList])
    · rintro rfl
      exact ⟨closed, (isHoleName_iff_name _).2 (.inl tokenized)⟩
  named := by
    intro hole member place
    obtain ⟨x, piece, ⟨-, rfl⟩ | ⟨-, rfl⟩⟩ := exists_piece_of_isFree free
    · obtain ⟨name, span⟩ := hole
      obtain ⟨same, rfl⟩ := eq_of_mem_holes piece member place
      rw [← Piece.hole.inj same, String.ofList_toList]
      simp only [Position.after_append]
      rfl
    · cases (eq_of_mem_holes piece member place).1
  shown := by
    intro plain
    rw [interpolatesAt_iff_holeFollows free] at plain
    have reads := read_of_isFree free
    rw [((Piece.read_brace right).resolve_left fun follows ↦ plain follows.1).2] at reads
    change Segment.ShowsAfter (Segment.ofPieces (Piece.locate _ (Piece.read _))) _ _
    rw [reads]
    exact Segment.showsAfter_ofPieces _ _ _ _

end Brace

end StringLiteral

/-! ## String tokens -/

/-- An opening brace in a string token starts an interpolated name exactly if the text up to the
next closing brace is tokenized as that name, or passes for one, and is literal text otherwise. So
every interpolated name is a name or passes for one. -/
theorem braces_tokenize {source : String} {literal : StringLiteral} {span : Span}
    (h : ⟨.string literal, span⟩ ∈ (tokenize source).tokens) :
    (∀ hole ∈ literal.holes, TokenizesAsName hole.1 hole.1 ∨ PassesForName hole.1.toList)
      ∧ ∃ before body after,
        source.toList = before ++ StringLiteral.written literal.triple body ++ after
          ∧ span = ⟨Position.start.after before,
              Position.start.after (before ++ StringLiteral.written literal.triple body)⟩
          ∧ ∀ left right, body = left ++ '\x7b' :: right →
            let place := Position.start.after
              (before ++ StringLiteral.quotes literal.triple ++ left)
            literal.IsFree place.offset → literal.ReadsBrace place left right := by
  have shown : ⟨.string literal, span⟩ ∈ visible (tokenize source).tokens :=
    List.mem_filter.2 ⟨h, rfl⟩
  obtain ⟨before, after, triple, body, whole, place, rfl⟩ := string_mem_tokenize shown
  refine ⟨fun hole member ↦ ?_, before, body, after, whole, place, ?_⟩
  · have piece := Piece.mem_of_mem_locate (StringLiteral.hole_piece_of_mem_holes member)
    have made := (isHoleName_iff_name _).1 (Piece.isHoleName_of_mem_read piece)
    rwa [String.ofList_toList] at made
  · rintro left right rfl
    have start : span.start = Position.start.after before := congrArg Span.start place
    simp only [List.append_assoc, Position.after_append Position.start, ← start]
    exact StringLiteral.readsBrace_of_isFree

/-- A string with an escaped brace, an interpolated name and a brace that is literal text. -/
theorem braces_tokenize_mixed :
    let literal := StringLiteral.decode .start false
      ['\\', '\x7b', '\x7b', 'x', '\x7d', '\x7b', 'y', ' ', '\x7d']
    let span : Span := ⟨.start, Position.start.after "\"\\\x7b\x7bx\x7d\x7by \x7d\"".toList⟩
    ⟨.string literal, span⟩ ∈ (tokenize "\"\\\x7b\x7bx\x7d\x7by \x7d\"").tokens
      ∧ literal.IsFree 3 ∧ literal.IsFree 6
      ∧ (∀ hole ∈ literal.holes, TokenizesAsName hole.1 hole.1 ∨ PassesForName hole.1.toList)
      ∧ ∃ before body after,
        "\"\\\x7b\x7bx\x7d\x7by \x7d\"".toList
            = before ++ StringLiteral.written literal.triple body ++ after
          ∧ span = ⟨Position.start.after before,
              Position.start.after (before ++ StringLiteral.written literal.triple body)⟩
          ∧ ∀ left right, body = left ++ '\x7b' :: right →
            let place := Position.start.after
              (before ++ StringLiteral.quotes literal.triple ++ left)
            literal.IsFree place.offset → literal.ReadsBrace place left right := by
  intro literal span
  have member : ⟨.string literal, span⟩ ∈ (tokenize "\"\\\x7b\x7bx\x7d\x7by \x7d\"").tokens := by
    decide +kernel
  exact ⟨member, by decide +kernel, by decide +kernel, braces_tokenize member⟩

/-- A text with a hyphen at its end and a reserved word are interpolated, although neither of them
is tokenized as a name. -/
theorem interpolated_without_name :
    ((∃ literal span, ⟨.string literal, span⟩ ∈ (tokenize "\"\x7ba-\x7d\"").tokens
        ∧ literal.IsFree 1 ∧ literal.InterpolatesAt 1)
      ∧ ∀ name, ¬TokenizesAsName "a-" name)
    ∧ (∃ literal span, ⟨.string literal, span⟩ ∈ (tokenize "\"\x7bif\x7d\"").tokens
        ∧ literal.IsFree 1 ∧ literal.InterpolatesAt 1)
      ∧ ∀ name, ¬TokenizesAsName "if" name := by
  refine ⟨⟨?_, fun name one ↦ ?_⟩, ?_, fun name one ↦ ?_⟩
  · exact ⟨.decode .start false ['\x7b', 'a', '-', '\x7d'],
      ⟨.start, Position.start.after "\"\x7ba-\x7d\"".toList⟩, by decide +kernel⟩
  · have kinds : (tokenize "a-").tokens.map Token.kind
        = [.identifier "a", .invalid, .newline, .endOfFile] := by decide +kernel
    cases kinds.symm.trans one
  · exact ⟨.decode .start false ['\x7b', 'i', 'f', '\x7d'],
      ⟨.start, Position.start.after "\"\x7bif\x7d\"".toList⟩, by decide +kernel⟩
  · cases (kinds_tokenize_keyword .if_).symm.trans one

end ProseLang
