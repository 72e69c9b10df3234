import ProseLang.Editor.Problem
import ProseLang.Proofs.Grammar.Places
import ProseLang.Proofs.Text.LineIndex
import ProseLang.Proofs.Validation.Places
import ProseLang.Report

/-!
# Positions of a text

Whatever is read in a text and found wrong with it stands at positions of the text (`valid_places`).
In a text of fewer than `2 ^ 32 - 1` bytes all ways to count lines and columns agree there, and a
finding is shown on the same line on the command line and in an editor (`positions_agree`). The end
of a text of `2 ^ 32 - 1` line feeds is recorded on line zero (`not_positionsAgree_lineFeeds`).
-/

namespace ProseLang

/-- The places of everything that is read in a text and found wrong with it: tokens with what is in
them, lexical errors, grammar errors, the program, and findings with the places that they
involve. -/
def places (source : String) (options : ValidatorOptions) : List Span :=
  let parsed := parse source
  (tokenize source).tokens.flatMap Token.places
    ++ parsed.lexErrors.map LexError.span
    ++ parsed.errors.map ParseError.span
    ++ parsed.program.spans
    ++ (validate parsed.program options).findings.flatMap Finding.spans

/-- These places as they are recorded. -/
def recordedSpans (source : String) (options : ValidatorOptions) : List Span :=
  (places source options).map Span.inWords

private theorem valid_places (source : String) (options : ValidatorOptions) :
    ∀ s ∈ places source options, s.Valid source.toList := by
  obtain ⟨tokens, lexErrors⟩ := tokenize_valid source
  obtain ⟨program, errors⟩ := parse_valid source
  have findings := validate_spans (parse source).program options
  simp only [places, List.forall_mem_append, List.forall_mem_flatMap, List.forall_mem_map]
  exact ⟨⟨⟨⟨tokens, lexErrors⟩, errors⟩, program⟩, fun f hf s hs ↦ program s (findings f hf s hs)⟩

private theorem mem_places_of_finding {source : String} {options : ValidatorOptions} {f : Finding}
    (h : f ∈ (validate (parse source).program options).findings) : f.span ∈ places source options :=
  List.mem_append_right _ (List.mem_flatMap.2 ⟨f, h, List.mem_cons_self⟩)

private theorem mem_places_of_token {source : String} {options : ValidatorOptions} {t : Token}
    (h : t ∈ (tokenize source).tokens) : t.span ∈ places source options := by
  simp only [places, List.append_assoc]
  exact List.mem_append_left _ (List.mem_flatMap.2 ⟨t, h, List.mem_cons_self⟩)

/-! ## Positions as they are recorded -/

/-- Whether a recorded position of a text, at a character of it or at its end, is the one that is
looked up for its offset, and the line and column counted in characters are those of its line: the
column is one past the characters of the line before it. -/
structure Position.Agrees (text : List Char) (p : Position) : Prop where
  indexed : indexedAt text p.offset = p
  counted : ∃ before after, text = before ++ after ∧ p.offset = utf8Length before
    ∧ lineColumnAt text p.offset = ⟨p.line, (lastLine before).length + 1⟩

/-- A position of a text is recorded without loss if the text is short. -/
theorem Position.Valid.inWords_eq {text : List Char} {p : Position} (h : p.Valid text)
    (short : utf8Length text < wordLimit - 1) : p.inWords = p := by
  obtain ⟨before, after, rfl, rfl⟩ := h
  rw [utf8Length_append] at short
  exact inWords_after (by omega)

private theorem Position.Valid.agrees {text : List Char} {p : Position} (h : p.Valid text)
    (short : utf8Length text < wordLimit - 1) : p.inWords.Agrees text := by
  have recorded := h.inWords_eq short
  obtain ⟨before, after, rfl, rfl⟩ := h
  have offset : (Position.start.after before).offset = utf8Length before := by
    rw [Position.after_start]
  constructor
  case indexed =>
    rw [recorded, offset, indexedAt_eq_inWords, positionAt_boundary, recorded]
  case counted =>
    rw [recorded, offset, lineColumnAt_boundary, LineColumn.after_eq, Position.after_start]
    exact ⟨before, after, rfl, rfl, rfl⟩

/-! ## Findings as they are shown -/

/-- Further places that are marked change nothing else about a diagnostic. -/
theorem foldl_mark (file : String) (rs : List (Span × String)) (d : Diagnostic) :
    let marked := rs.foldl (fun d r ↦ d.mark .secondary (r.1.inFile file) r.2) d
    marked.severity = d.severity ∧ marked.message = d.message
      ∧ marked.marks.primary = d.marks.primary := by
  induction rs generalizing d with
  | nil => exact ⟨rfl, rfl, rfl⟩
  | cons r rs ih => exact ih (d.mark .secondary (r.1.inFile file) r.2)

/-- A finding in a known file is rendered with the line and column of its start. -/
theorem renderShort_finding (f : Finding) (file source : String) :
    renderShort (f.diagnostic file) (Sources.add {} file source)
      = file ++ ":" ++ toString (lineColumnAt source.toList f.span.start.offset).line ++ ":"
        ++ toString (lineColumnAt source.toList f.span.start.offset).column ++ ": "
        ++ (f.severity.text ++ ": " ++ f.issue.message) := by
  obtain ⟨severity, message, primary⟩ := foldl_mark file f.issue.related
    (.ofSpan file f.severity f.issue.code f.issue.message f.span)
  have primary : (f.diagnostic file).marks.primary = some (f.span.inFile file) := primary
  have known : (Sources.add {} file source).resolve? (f.span.inFile file)
      = some (Sources.resolveIn source.toList (f.span.inFile file)) := by
    simp [Sources.resolve?, Sources.get?, Sources.add, Span.inFile, FileSpan.ofRange]
  simp only [renderShort, primary, known]
  rw [Finding.diagnostic, severity, message]
  rfl

/-- An editor counts the line of a position from zero. -/
theorem Position.Valid.line_pos {text : List Char} {p : Position} (h : p.Valid text) :
    0 < p.line := by
  obtain ⟨before, after, -, rfl⟩ := h
  rw [Position.after_start]
  exact Nat.add_pos_left Nat.zero_lt_one _

/-- Whether everything that is read in a text and found wrong with it is recorded as going forward
from one position of the text to another, the lines and columns of these positions are those of
their offsets, counted in either way, and a finding is rendered with the line that an editor shows
it on. -/
structure PositionsAgree (source : String) (options : ValidatorOptions) : Prop where
  recorded : ∀ s ∈ recordedSpans source options, s.start.offset ≤ s.stop.offset
    ∧ s.start.Agrees source.toList ∧ s.stop.Agrees source.toList
  shown : ∀ file, ∀ f ∈ (validate (parse source).program options).findings,
    renderShort (f.diagnostic file) (Sources.add {} file source)
      = file ++ ":" ++ toString ((Problem.ofFinding f).range.start.line + 1) ++ ":"
        ++ toString (lineColumnAt source.toList f.span.start.offset).column ++ ": "
        ++ (f.severity.text ++ ": " ++ f.issue.message)

/-- Whatever is wrong with a text of fewer than `2 ^ 32 - 1` bytes, its positions agree. -/
theorem positions_agree (source : String) (options : ValidatorOptions)
    (short : utf8Length source.toList < wordLimit - 1) : PositionsAgree source options := by
  have valid := valid_places source options
  constructor
  case recorded =>
    intro recorded member
    obtain ⟨s, hs, rfl⟩ := List.mem_map.1 member
    exact ⟨(valid s hs).forward, (valid s hs).starts.agrees short, (valid s hs).stops.agrees short⟩
  case shown =>
    intro file f hf
    have start := (valid f.span (mem_places_of_finding hf)).starts
    obtain ⟨before, after, -, -, counted⟩ := (start.agrees short).counted
    have line : (lineColumnAt source.toList f.span.start.offset).line
        = (Problem.ofFinding f).range.start.line + 1 := by
      rw [start.inWords_eq short] at counted
      rw [counted]
      exact (Nat.sub_add_cancel start.line_pos).symm
    rw [renderShort_finding, line]

/-- A session that is given no name, after a character of two bytes and with one of two UTF-16
units. -/
theorem positions_agree_accented :
    utf8Length "# é\nsession \"𝄞\": nobody\n".toList < wordLimit - 1
      ∧ PositionsAgree "# é\nsession \"𝄞\": nobody\n" {} :=
  ⟨by decide, positions_agree _ _ (by decide)⟩

/-- Counted in characters, a text of line feeds ends on the line after the last of them. -/
theorem lineColumnAt_lineFeeds (n : Nat) : lineColumnAt (List.replicate n '\n') n = ⟨n + 1, 1⟩ := by
  have ends := lineColumnAt_boundary (List.replicate n '\n') []
  rw [List.append_nil, utf8Length_lineFeeds] at ends
  have last : lastLine (List.replicate n '\n') = [] := by
    cases n with
    | zero => rfl
    | succ n => rw [List.replicate_succ', lastLine_lineFeed]
  rw [ends, LineColumn.after_eq, List.count_replicate_self, last, Nat.add_comm 1]
  rfl

/-- A text of `2 ^ 32 - 1` line feeds ends on line `2 ^ 32`, and its end is recorded on line
zero. -/
theorem not_positionsAgree_lineFeeds :
    utf8Length (String.ofList (List.replicate (wordLimit - 1) '\n')).toList < wordLimit
      ∧ ¬ PositionsAgree (String.ofList (List.replicate (wordLimit - 1) '\n')) {} := by
  rw [String.toList_ofList, utf8Length_lineFeeds]
  refine ⟨by decide, fun agree ↦ ?_⟩
  -- the end of the file is a token of every text
  have ends : (⟨.endOfFile, .point (Position.start.after
    (List.replicate (wordLimit - 1) '\n'))⟩ : Token)
      ∈ (tokenize (String.ofList (List.replicate (wordLimit - 1) '\n'))).tokens := by
    rw [tokenize, String.toList_ofList, tokens_tokenizeChars]
    exact List.mem_append_right _ (List.mem_singleton.2 rfl)
  obtain ⟨-, start, -⟩ := agree.recorded _ (List.mem_map_of_mem (mem_places_of_token ends))
  obtain ⟨before, after, -, -, counted⟩ := start.counted
  rw [after_lineFeeds, String.toList_ofList] at counted
  have line : wordLimit - 1 + 1 = (wordLimit - 1 + 1) % wordLimit :=
    congrArg LineColumn.line ((lineColumnAt_lineFeeds (wordLimit - 1)).symm.trans counted)
  exact absurd line (by decide)

end ProseLang
