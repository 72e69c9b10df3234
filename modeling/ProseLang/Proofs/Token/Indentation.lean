import Mathlib.Data.List.Forall2
import ProseLang.Proofs.Program.Recast
import ProseLang.Proofs.Token.Partition

/-!
# Indentation is relative

The tokens of a text depend on how far its lines are indented only through which of two lines is
indented further (`tokenize_reindented`). `linesOf` is what a text consists of once places, blanks
within lines and line breaks without meaning are left out; two texts are compared by it. The layout
passes over both texts keep step: the widths of the open blocks of one are those of the other under
the map between the indentations (`Layout.Reindented`).
-/

namespace ProseLang

/-! ## The lines of a text -/

/-- What the lines of a text consist of. -/
inductive LineItem
  /-- The first token of a logical line, with the blanks in front of it. -/
  | first (blanks : List Char) (kind : TokenKind)
  /-- A token further on in a logical line. -/
  | token (kind : TokenKind)
  | comment (text : String)
  /-- The end of a line that has a token, outside of brackets. -/
  | lineEnd

/-- The number of open brackets after a token. -/
def TokenKind.depthAfter (depth : Nat) : TokenKind → Nat
  | symbol mark => if mark.opens then depth + 1 else if mark.closes then depth - 1 else depth
  | _ => depth

/-- Where a reader of lines stands. -/
structure LinePoint where
  /-- The number of open brackets. -/
  depth : Nat := 0
  /-- Whether the logical line has a token. -/
  begun : Bool := false
  /-- The blanks read last on the physical line. -/
  blanks : List Char := []

namespace LinePoint

/-- Takes in a lexeme. A line break within brackets or on a line without a token is no item. -/
def read (q : LinePoint) (l : LexemeAt) : LinePoint × Option LineItem :=
  match l.kind? with
  | some kind =>
    ({ q with depth := kind.depthAfter q.depth, begun := true },
      some (if q.depth = 0 && !q.begun then .first q.blanks kind else .token kind))
  | none =>
    match l.lexeme with
    | .blank => ({ q with blanks := l.text }, none)
    | .comment => (q, some (.comment (String.ofList l.text)))
    | _ =>
      if 0 < q.depth || !q.begun then ({ q with blanks := [] }, none)
      else ({ q with begun := false, blanks := [] }, some .lineEnd)

/-- When a lexeme is an item. -/
inductive Reads (q : LinePoint) (l : LexemeAt) : LineItem → Prop
  | first {k : TokenKind} (hk : l.kind? = some k) (outside : q.depth = 0)
    (fresh : q.begun = false) : q.Reads l (.first q.blanks k)
  | token {k : TokenKind} (hk : l.kind? = some k) (inLine : ¬(q.depth = 0 ∧ q.begun = false)) :
    q.Reads l (.token k)
  | comment (hl : l.lexeme = .comment) : q.Reads l (.comment (String.ofList l.text))
  | lineEnd (hl : l.lexeme = .lineBreak) (outside : q.depth = 0) (begun : q.begun = true) :
    q.Reads l .lineEnd

private theorem reads_of_read {q : LinePoint} {l : LexemeAt} {i : LineItem}
    (h : (q.read l).2 = some i) : q.Reads l i := by
  cases hk : l.kind? with
  | some k =>
    simp only [read, hk] at h
    split at h
    · next begins =>
      cases h
      obtain ⟨outside, fresh⟩ := Bool.and_eq_true_iff.1 begins
      exact .first hk (by simpa using outside) (by simpa using fresh)
    · next inLine =>
      cases h
      exact .token hk (by simpa using inLine)
  | none =>
    rcases LexemeAt.lexeme_of_kind?_none hk with hl | hl | hl <;> simp only [read, hk, hl] at h
    · cases h
    · split at h
      · cases h
      · next ends =>
        cases h
        simp only [Bool.or_eq_true, decide_eq_true_eq, not_or] at ends
        exact .lineEnd hl (by omega) (by simpa using ends.2)
    · cases h
      exact .comment hl

/-- The items that lexemes make up. -/
def items (q : LinePoint) : List LexemeAt → List LineItem
  | [] => []
  | l :: ls => (q.read l).2.toList ++ (q.read l).1.items ls

end LinePoint

/-- The items of a source text. -/
def linesOf (source : String) : List LineItem :=
  LinePoint.items {} (lexemes .start source.toList)

/-- The indentations of the logical lines that start among some items. -/
def widths (items : List LineItem) : List Nat :=
  items.filterMap fun
    | .first blanks _ => some blanks.length
    | _ => none

private theorem widths_cons (i : LineItem) (is : List LineItem) :
    widths (i :: is) = widths [i] ++ widths is :=
  List.filterMap_append (l := [i])

/-- Whether `f` keeps the order of some numbers. -/
def Ascends (f : Nat → Nat) (ws : List Nat) : Prop := ∀ x ∈ ws, ∀ y ∈ ws, x < y → f x < f y

/-- Whether two items differ in places only, and in the indentation of a line as `f` says. Lines are
indented without tabs. -/
def LineItem.Reindented (f : Nat → Nat) : LineItem → LineItem → Prop
  | first blanks kind, first blanks' kind' =>
    '\t' ∉ blanks ∧ '\t' ∉ blanks' ∧ f blanks.length = blanks'.length
      ∧ recast .bare kind = recast .bare kind'
  | token kind, token kind' => recast .bare kind = recast .bare kind'
  | comment text, comment text' => text = text'
  | lineEnd, lineEnd => True
  | _, _ => False

instance (f : Nat → Nat) : DecidableRel (LineItem.Reindented f)
  | .first blanks kind, .first blanks' kind' =>
    inferInstanceAs (Decidable ('\t' ∉ blanks ∧ '\t' ∉ blanks' ∧ f blanks.length = blanks'.length
      ∧ recast .bare kind = recast .bare kind'))
  | .token kind, .token kind' =>
    inferInstanceAs (Decidable (recast .bare kind = recast .bare kind'))
  | .comment text, .comment text' => inferInstanceAs (Decidable (text = text'))
  | .lineEnd, .lineEnd => isTrue trivial
  | .first .., .token _ | .first .., .comment _ | .first .., .lineEnd | .token _, .first ..
  | .token _, .comment _ | .token _, .lineEnd | .comment _, .first .. | .comment _, .token _
  | .comment _, .lineEnd | .lineEnd, .first .. | .lineEnd, .token _ | .lineEnd, .comment _ =>
    isFalse id

/-- Whether a fault is one of the layout of a line. -/
def LexFault.isLayout : LexFault → Bool
  | tabIndentation | inconsistentDedent => true
  | unexpectedCharacter _ | unterminatedString | unterminatedDiscretion _ | invalidEscape _ => false

/-- What is wrong with the layout of a text, in order. -/
def layoutFaults (errors : List LexError) : List LexFault :=
  (errors.map LexError.fault).filter LexFault.isLayout

private theorem depthAfter_bare (depth : Nat) (k : TokenKind) :
    (recast .bare k).depthAfter depth = k.depthAfter depth := by
  cases k <;> rfl

/-! ## Widths under a map -/

section Widths

variable {f : Nat → Nat} {ws : List Nat}

private theorem Ascends.lt_iff (h : Ascends f ws) {x y : Nat} (hx : x ∈ ws) (hy : y ∈ ws) :
    f x < f y ↔ x < y := by
  constructor
  · intro less
    rcases Nat.lt_trichotomy x y with lt | rfl | gt
    · exact lt
    · exact absurd less (Nat.lt_irrefl _)
    · exact absurd (h y hy x hx gt) (Nat.lt_asymm less)
  · exact h x hx y hy

private theorem Ascends.eq_iff (h : Ascends f ws) {x y : Nat} (hx : x ∈ ws) (hy : y ∈ ws) :
    f x = f y ↔ x = y := by
  have less := h.lt_iff hx hy
  have more := h.lt_iff hy hx
  omega

variable {width : Nat} {indents : List Nat}

/-- The blocks that a line closes. -/
theorem takeWhile_map_of_ascends (h : Ascends f ws) (hw : width ∈ ws) (hi : indents ⊆ ws) :
    (indents.map f).takeWhile (f width < ·) = (indents.takeWhile (width < ·)).map f := by
  induction indents with
  | nil => rfl
  | cons i indents ih =>
    obtain ⟨first, rest⟩ := List.cons_subset.1 hi
    have same := h.lt_iff hw first
    by_cases deeper : width < i
    · simp [same, deeper, ih rest]
    · simp [same, deeper]

/-- The blocks that a line leaves open. -/
theorem dropWhile_map_of_ascends (h : Ascends f ws) (hw : width ∈ ws) (hi : indents ⊆ ws) :
    (indents.map f).dropWhile (f width < ·) = (indents.dropWhile (width < ·)).map f := by
  induction indents with
  | nil => rfl
  | cons i indents ih =>
    obtain ⟨first, rest⟩ := List.cons_subset.1 hi
    have same := h.lt_iff hw first
    by_cases deeper : width < i
    · simp [same, deeper, ih rest]
    · simp [same, deeper]

private theorem headD_map (zero : f 0 = 0) (indents : List Nat) :
    (indents.map f).headD 0 = f (indents.headD 0) := by
  cases indents with
  | nil => exact zero.symm
  | cons i indents => rfl

private theorem headD_mem (hi : indents ⊆ ws) : indents.headD 0 ∈ 0 :: ws := by
  cases indents with
  | nil => exact List.mem_cons_self
  | cons i indents => exact List.mem_cons_of_mem 0 (hi List.mem_cons_self)

end Widths

/-! ## Two layout passes in step -/

/-- Whether two outputs are the same up to places and to what is wrong within tokens. -/
structure Tokenized.Alike (a b : Tokenized) : Prop where
  tokens : recast .bare a.tokens = recast .bare b.tokens
  faults : layoutFaults a.errors = layoutFaults b.errors

namespace Tokenized.Alike

variable {a b c d : Tokenized}

private theorem append (h : a.Alike b) (h' : c.Alike d) : (a ++ c).Alike (b ++ d) where
  tokens := by
    rw [tokens_append, tokens_append, recast_append, recast_append, h.tokens, h'.tokens]
  faults := by
    have first := h.faults
    have second := h'.faults
    simp only [layoutFaults] at first second
    simp only [layoutFaults, errors_append, List.map_append, List.filter_append, first, second]

private theorem nothing : Tokenized.Alike {} {} := ⟨rfl, rfl⟩

private theorem ofTokens {ts us : List Token} (h : recast .bare ts = recast .bare us) :
    (Tokenized.ofTokens ts).Alike (.ofTokens us) := ⟨h, rfl⟩

end Tokenized.Alike

namespace Layout

/-- Where a reader of lines stands with the layout pass. -/
def point (s : Layout) : LinePoint := ⟨s.depth, s.hasContent, s.lead⟩

/-- Whether two layouts agree, where `f` takes the widths of the open blocks of one, which are among
`ws`, to those of the other. -/
structure Reindented (f : Nat → Nat) (ws : List Nat) (s t : Layout) : Prop where
  indents : t.indents = s.indents.map f
  among : s.indents ⊆ ws
  depth : s.depth = t.depth
  hasContent : s.hasContent = t.hasContent
  pending : s.pending.isSome = t.pending.isSome
  held : recast .bare s.held = recast .bare t.held

variable {f : Nat → Nat} {ws : List Nat} {s t : Layout} {l m : LexemeAt}

private theorem leadTab?_eq_none (h : '\t' ∉ s.lead) : s.leadTab? = none := by
  have : s.lead.findIdx? (· = '\t') = none := by
    rw [List.findIdx?_eq_none_iff]
    intro c hc
    simp only [decide_eq_false_iff_not]
    rintro rfl
    exact h hc
  rw [leadTab?, this]
  rfl

private theorem bare_dedents_eq_replicate (n : Nat) (p : Position) :
    recast .bare (dedents n p) = List.replicate n ⟨.dedent, .nowhere⟩ := List.map_replicate

private theorem bare_ended (s : Layout) :
    recast .bare s.ended = if s.pending.isSome then [⟨.newline, .nowhere⟩] else [] := by
  rw [ended]
  cases s.pending <;> rfl

/-- The end of a text: a line that has begun ends, and so do the open blocks. -/
theorem bare_finish (s : Layout) (p : Position) :
    recast .bare (s.finish p) =
      (if s.pending.isSome || s.hasContent then [⟨.newline, .nowhere⟩] else [])
        ++ List.replicate s.indents.length ⟨.dedent, .nowhere⟩ ++ recast .bare s.held
        ++ [⟨.endOfFile, .nowhere⟩] := by
  simp only [finish, recast_append, bare_dedents_eq_replicate]
  cases s.pending with
  | some span => rfl
  | none => cases s.hasContent <;> rfl

/-- The start of a line that is indented without tabs. -/
theorem startLine_of_plain (plain : '\t' ∉ s.lead) (isPipe : Bool) (p : Position) :
    s.startLine isPipe p =
      let closed := dedents (s.indents.takeWhile (s.lead.length < ·)).length p
      let kept := s.indents.dropWhile (s.lead.length < ·)
      if isPipe && s.pending.isSome then
        ({ s with indents := kept, pending := none, held := [] }, ⟨s.held ++ closed, []⟩)
      else if s.indents.headD 0 < s.lead.length then
        ({ s with indents := s.lead.length :: s.indents, pending := none, held := [] },
          ⟨s.ended ++ ⟨.indent, ⟨s.lineStart, p⟩⟩ :: s.held, []⟩)
      else
        ({ s with indents := kept, pending := none, held := [] },
          ⟨s.ended ++ closed ++ s.held, if kept.headD 0 = s.lead.length then []
            else [⟨.inconsistentDedent, ⟨s.lineStart, p⟩⟩]⟩) := by
  simp only [startLine, leadTab?_eq_none plain]
  rfl

/-- Lines that are indented alike start alike. -/
theorem Reindented.startLine (h : s.Reindented f ws t) (zero : f 0 = 0)
    (ascends : Ascends f (0 :: ws))
    (plain : '\t' ∉ s.lead) (plain' : '\t' ∉ t.lead) (width : f s.lead.length = t.lead.length)
    (among : s.lead.length ∈ ws) (isPipe : Bool) (p q : Position) :
    (s.startLine isPipe p).1.Reindented f ws (t.startLine isPipe q).1
      ∧ (s.startLine isPipe p).2.Alike (t.startLine isPipe q).2 := by
  have mem : s.lead.length ∈ 0 :: ws := List.mem_cons_of_mem 0 among
  have all : s.indents ⊆ 0 :: ws := fun w hw ↦ List.mem_cons_of_mem 0 (h.among hw)
  have keptAmong : s.indents.dropWhile (s.lead.length < ·) ⊆ ws :=
    fun w hw ↦ h.among ((List.dropWhile_suffix _).subset hw)
  have kept := dropWhile_map_of_ascends ascends mem all
  have closed : (t.indents.takeWhile (t.lead.length < ·)).length
      = (s.indents.takeWhile (s.lead.length < ·)).length := by
    rw [h.indents, ← width, takeWhile_map_of_ascends ascends mem all, List.length_map]
  have deeper : t.indents.headD 0 < t.lead.length ↔ s.indents.headD 0 < s.lead.length := by
    rw [h.indents, headD_map zero, ← width]
    exact ascends.lt_iff (headD_mem h.among) mem
  have fits : (t.indents.dropWhile (t.lead.length < ·)).headD 0 = t.lead.length
      ↔ (s.indents.dropWhile (s.lead.length < ·)).headD 0 = s.lead.length := by
    rw [h.indents, ← width, kept, headD_map zero]
    exact ascends.eq_iff (headD_mem keptAmong) mem
  have left : t.indents.dropWhile (t.lead.length < ·)
      = (s.indents.dropWhile (s.lead.length < ·)).map f := by
    rw [h.indents, ← width, kept]
  rw [startLine_of_plain plain, startLine_of_plain plain']
  simp only [closed, deeper, fits, h.pending]
  split
  · exact ⟨⟨left, keptAmong, h.depth, h.hasContent, rfl, rfl⟩,
      by simp only [recast_append, h.held, bare_dedents_eq_replicate], rfl⟩
  split
  · refine ⟨⟨?_, ?_, h.depth, h.hasContent, rfl, rfl⟩, ?_, rfl⟩
    · rw [h.indents, ← width, List.map_cons]
    · exact List.cons_subset.2 ⟨among, h.among⟩
    · simp only [recast_append, bare_ended, recast_cons, h.pending, h.held]
      rfl
  · refine ⟨⟨left, keptAmong, h.depth, h.hasContent, rfl, rfl⟩, ?_, ?_⟩
    · simp only [recast_append, bare_ended, bare_dedents_eq_replicate, h.pending, h.held]
    · split <;> rfl

/-- The brackets and the blanks of a line stay as they are where it starts. -/
theorem startLine_keeps (s : Layout) (isPipe : Bool) (p : Position) :
    (s.startLine isPipe p).1.depth = s.depth ∧ (s.startLine isPipe p).1.lead = s.lead := by
  rcases s.startLine_cases isPipe p with ⟨_, _, -, next, -⟩ | ⟨_, _, -, -, next, -⟩ <;>
    rw [next] <;> exact ⟨rfl, rfl⟩

/-- The layout and the output after a token: a line may start with it. -/
theorem token_eq_startLine (s : Layout) (k : TokenKind) (span : Span) :
    s.token k span =
      let begins := s.depth = 0 && !s.hasContent
      let line := if begins then s.startLine (k = .symbol .pipe) span.start else (s, {})
      ({ line.1 with depth := k.depthAfter line.1.depth, hasContent := true },
        line.2 ++ .ofTokens [⟨k, span⟩]) := by
  rfl

/-- A reader of lines keeps up with the layout pass. -/
theorem point_step (s : Layout) (l : LexemeAt) : (s.step l).1.point = (s.point.read l).1 := by
  cases hk : l.kind? with
  | some k =>
    rw [step_of_kind? hk, LinePoint.read, hk, faultyToken, token_eq_startLine]
    dsimp only
    split
    · obtain ⟨depth, lead⟩ := s.startLine_keeps (k = .symbol .pipe) l.span.start
      simp only [point, depth, lead]
    · rfl
  | none =>
    rcases LexemeAt.lexeme_of_kind?_none hk with hl | hl | hl
    · rw [step_of_blank hl, LinePoint.read, hk, hl]
      rfl
    · rw [step_of_lineBreak hl, LinePoint.read, hk, hl]
      obtain ⟨_, depth, hasContent, _, _, _, _⟩ := s
      cases depth <;> cases hasContent <;> rfl
    · rw [step_of_comment hl, LinePoint.read, hk, hl]
      simp only [comment]
      split <;> rfl

/-- What is wrong within a lexeme is not wrong with the layout. -/
theorem layoutFaults_faults (written : l.lexeme.IsWritten l.text) : layoutFaults l.faults = [] := by
  rw [layoutFaults, List.filter_eq_nil_iff]
  intro fault mem
  obtain ⟨e, he, rfl⟩ := List.mem_map.1 mem
  cases hl : l.lexeme with
  | quoted triple body =>
    rw [LexemeAt.faults, hl] at he
    obtain ⟨escape, -, rfl⟩ := List.mem_map.1 he
    exact Bool.false_ne_true
  | faulty fault =>
    rw [LexemeAt.faults, hl] at he
    rw [List.mem_singleton.1 he]
    rw [hl] at written
    cases fault <;> first | contradiction | exact Bool.false_ne_true
  | _ => simp [LexemeAt.faults, hl] at he

/-- What is no item gives nothing and leaves the lines as they are. -/
theorem step_of_silent (h : (s.point.read l).2 = none) :
    (s.step l).2 = {} ∧ ∃ lineStart lead, (s.step l).1 = { s with lineStart, lead } := by
  cases hk : l.kind? with
  | some k => simp [LinePoint.read, hk] at h
  | none =>
    rcases LexemeAt.lexeme_of_kind?_none hk with hl | hl | hl
    · rw [step_of_blank hl]
      exact ⟨rfl, s.lineStart, l.text, rfl⟩
    · rw [step_of_lineBreak hl, lineBreak]
      simp only [LinePoint.read, hk, hl] at h
      split at h
      · next silent =>
        rw [if_pos (by exact silent)]
        exact ⟨rfl, l.span.stop, [], rfl⟩
      · cases h
    · simp [LinePoint.read, hk, hl] at h

/-- Tokens that stand alike in their lines are taken in alike. -/
theorem Reindented.token (h : s.Reindented f ws t) {k k' : TokenKind}
    (same : recast .bare k = recast .bare k')
    (line : s.depth = 0 → s.hasContent = false → ∀ isPipe p q,
      (s.startLine isPipe p).1.Reindented f ws (t.startLine isPipe q).1
        ∧ (s.startLine isPipe p).2.Alike (t.startLine isPipe q).2) (span span' : Span) :
    (s.token k span).1.Reindented f ws (t.token k' span').1
      ∧ (s.token k span).2.Alike (t.token k' span').2 := by
  have depth : ∀ n, k.depthAfter n = k'.depthAfter n := by
    intro n
    rw [← depthAfter_bare, same, depthAfter_bare]
  have isPipe : k = .symbol .pipe ↔ k' = .symbol .pipe := by
    rw [← bare_eq_iff (by simp), same, bare_eq_iff (by simp)]
  have last : (Tokenized.ofTokens [⟨k, span⟩]).Alike (.ofTokens [⟨k', span'⟩]) :=
    .ofTokens (congrArg (fun kind ↦ [(⟨kind, .nowhere⟩ : Token)]) same)
  rw [token_eq_startLine, token_eq_startLine]
  simp only [← h.depth, ← h.hasContent, isPipe]
  split
  · next begins =>
    obtain ⟨outside, fresh⟩ := Bool.and_eq_true_iff.1 begins
    obtain ⟨next, before⟩ := line (by simpa using outside) (by simpa using fresh)
      (k' = .symbol .pipe) span.start span'.start
    refine ⟨{ next with depth := ?_, hasContent := rfl }, before.append last⟩
    rw [next.depth, depth]
  · refine ⟨{ h with depth := ?_, hasContent := rfl }, Tokenized.Alike.nothing.append last⟩
    dsimp only
    rw [depth, h.depth]

/-- Items that are alike are taken in alike. -/
theorem Reindented.step (h : s.Reindented f ws t) (zero : f 0 = 0) (ascends : Ascends f (0 :: ws))
    (written : l.lexeme.IsWritten l.text) (written' : m.lexeme.IsWritten m.text) {i j : LineItem}
    (hi : s.point.Reads l i) (hj : t.point.Reads m j) (same : i.Reindented f j)
    (among : widths [i] ⊆ ws) :
    (s.step l).1.Reindented f ws (t.step m).1 ∧ (s.step l).2.Alike (t.step m).2 := by
  have faults : (⟨[], l.faults⟩ : Tokenized).Alike ⟨[], m.faults⟩ :=
    ⟨rfl, by rw [layoutFaults_faults written, layoutFaults_faults written']⟩
  cases hi with
  | first hk outside fresh =>
    cases hj with
    | first hk' outside' fresh' =>
      obtain ⟨plain, plain', width, kind⟩ := same
      have line := h.startLine zero ascends plain plain' width (among List.mem_cons_self)
      obtain ⟨next, out⟩ := h.token kind (fun _ _ ↦ line) l.span m.span
      rw [step_of_kind? hk, step_of_kind? hk']
      exact ⟨next, faults.append out⟩
    | _ => exact same.elim
  | token hk inLine =>
    cases hj with
    | token hk' inLine' =>
      obtain ⟨next, out⟩ := h.token same (fun outside fresh ↦ absurd ⟨outside, fresh⟩ inLine)
        l.span m.span
      rw [step_of_kind? hk, step_of_kind? hk']
      exact ⟨next, faults.append out⟩
    | _ => exact same.elim
  | comment hl =>
    cases hj with
    | comment hm =>
      have text : String.ofList l.text = String.ofList m.text := same
      have stays : (t.hasContent || decide (0 < t.depth))
        = (s.hasContent || decide (0 < s.depth)) := by
        rw [h.hasContent, h.depth]
      rw [step_of_comment hl, step_of_comment hm, Layout.comment, Layout.comment, stays, text]
      split
      · exact ⟨h, .ofTokens rfl⟩
      · refine ⟨{ h with held := ?_ }, .nothing⟩
        rw [recast_append, recast_append, h.held]
        rfl
    | _ => exact same.elim
  | lineEnd hl outside begun =>
    cases hj with
    | lineEnd hm outside' begun' =>
      have ends : ∀ {r : Layout} {span : Span}, r.depth = 0 → r.hasContent = true →
          r.lineBreak span = { r with
            lineStart := span.stop, lead := [], pending := some span, hasContent := false } := by
        intro r span outside begun
        simp [lineBreak, outside, begun]
      rw [step_of_lineBreak hl, step_of_lineBreak hm, ends outside begun, ends outside' begun']
      exact ⟨{ h with hasContent := rfl, pending := rfl }, .nothing⟩
    | _ => exact same.elim

private theorem Reindented.move (h : s.Reindented f ws t) (start start' : Position)
    (lead lead' : List Char) :
    { s with lineStart := start, lead }.Reindented f ws
    { t with lineStart := start', lead := lead' } :=
  ⟨h.indents, h.among, h.depth, h.hasContent, h.pending, h.held⟩

end Layout

/-! ## Whole texts -/

section Runs

variable {f : Nat → Nat} {ws : List Nat} {s t : Layout} {ls ms : List LexemeAt}

private theorem runLayout_cons (s : Layout) (l : LexemeAt) (ls : List LexemeAt) :
    runLayout s (l :: ls) = ((runLayout (s.step l).1 ls).1,
      (s.step l).2 ++ (runLayout (s.step l).1 ls).2) := by
  rfl

/-- Lexemes without an item give nothing. -/
theorem runLayout_of_items_nil (h : s.point.items ls = []) :
    (runLayout s ls).2 = {} ∧ ∃ lineStart lead, (runLayout s ls).1 =
    { s with lineStart, lead } := by
  induction ls generalizing s with
  | nil => exact ⟨rfl, s.lineStart, s.lead, rfl⟩
  | cons l ls ih =>
    obtain ⟨silent, rest⟩ := List.append_eq_nil_iff.1 h
    obtain ⟨out, start, lead, next⟩ := Layout.step_of_silent (Option.toList_eq_nil_iff.1 silent)
    rw [← Layout.point_step] at rest
    obtain ⟨out', start', lead', final⟩ := ih rest
    rw [runLayout_cons, out, out', final, next]
    exact ⟨rfl, start', lead', rfl⟩

/-- Up to their first item lexemes give nothing. -/
theorem runLayout_of_items_cons {i : LineItem} {is : List LineItem}
    (h : s.point.items ls = i :: is) : ∃ lineStart lead l rest, l ∈ ls ∧ rest ⊆ ls
      ∧ ({ s with lineStart, lead }.point.Reads l i)
      ∧ ({ s with lineStart, lead }.step l).1.point.items rest = is
      ∧ runLayout s ls = runLayout { s with lineStart, lead } (l :: rest) := by
  induction ls generalizing s with
  | nil => cases h
  | cons l ls ih =>
    rw [LinePoint.items] at h
    cases hi : (s.point.read l).2 with
    | some i' =>
      rw [hi] at h
      cases h
      exact ⟨s.lineStart, s.lead, l, ls, List.mem_cons_self, List.subset_cons_self l ls,
        LinePoint.reads_of_read hi, by rw [← Layout.point_step]; rfl, rfl⟩
    | none =>
      obtain ⟨out, start, lead, next⟩ := Layout.step_of_silent hi
      rw [hi, ← Layout.point_step] at h
      obtain ⟨start', lead', m, rest, mem, among, reads, after, same⟩ := ih h
      rw [next] at reads after same
      refine ⟨start', lead', m, rest, List.mem_cons_of_mem l mem,
        List.subset_cons_of_subset l among, reads, after, ?_⟩
      rw [← same, runLayout_cons, out, next]
      rfl

/-- Texts that consist of the same are laid out in step. -/
theorem Layout.Reindented.run (h : s.Reindented f ws t) (zero : f 0 = 0)
    (ascends : Ascends f (0 :: ws)) (written : ∀ l ∈ ls, l.lexeme.IsWritten l.text)
    (written' : ∀ m ∈ ms, m.lexeme.IsWritten m.text)
    (same : List.Forall₂ (LineItem.Reindented f) (s.point.items ls) (t.point.items ms))
    (among : widths (s.point.items ls) ⊆ ws) :
    (runLayout s ls).1.Reindented f ws (runLayout t ms).1
      ∧ (runLayout s ls).2.Alike (runLayout t ms).2 := by
  generalize hi : s.point.items ls = is at same among
  generalize hj : t.point.items ms = js at same
  induction same generalizing s t ls ms with
  | nil =>
    obtain ⟨out, start, lead, final⟩ := runLayout_of_items_nil hi
    obtain ⟨out', start', lead', final'⟩ := runLayout_of_items_nil hj
    rw [final, final', out, out']
    exact ⟨h.move start start' lead lead', .nothing⟩
  | @cons i j is js first rest ih =>
    obtain ⟨start, lead, l, ls', hl, hls, reads, after, run⟩ := runLayout_of_items_cons hi
    obtain ⟨start', lead', m, ms', hm, hms, reads', after', run'⟩ := runLayout_of_items_cons hj
    obtain ⟨here, later⟩ := List.append_subset.1 (widths_cons i is ▸ among)
    obtain ⟨next, out⟩ := (h.move start start' lead lead').step zero ascends (written l hl)
      (written' m hm) reads reads' first here
    obtain ⟨final, outs⟩ := ih next (fun x hx ↦ written x (hls hx)) (fun x hx ↦ written' x (hms hx))
      after later after'
    rw [run, run', runLayout_cons, runLayout_cons]
    exact ⟨final, out.append outs⟩

/-- Layouts in step end a text alike. -/
theorem Layout.Reindented.finish (h : s.Reindented f ws t) (p q : Position) :
    recast .bare (s.finish p) = recast .bare (t.finish q) := by
  rw [bare_finish, bare_finish, h.pending, h.hasContent, h.held, h.indents, List.length_map]

end Runs

/-- The tokens of a text and what is wrong with its layout are those of every text that consists of
the same and indents its lines alike, where of two lines the same is indented further. -/
theorem tokenize_reindented {f : Nat → Nat} (zero : f 0 = 0) {a b : String}
    (ascends : Ascends f (0 :: widths (linesOf a)))
    (same : List.Forall₂ (LineItem.Reindented f) (linesOf a) (linesOf b)) :
    unplaced (tokenize a).tokens = unplaced (tokenize b).tokens
      ∧ layoutFaults (tokenize a).errors = layoutFaults (tokenize b).errors := by
  have start : Layout.Reindented f (widths (linesOf a)) {} {} := by
    constructor <;> first | rfl | exact List.nil_subset _
  obtain ⟨final, out⟩ := start.run zero ascends (fun _ ↦ isWritten_of_mem_lexemes)
    (fun _ ↦ isWritten_of_mem_lexemes) same (List.Subset.refl _)
  obtain ⟨tokens, faults⟩ := out.append (.ofTokens (final.finish (Position.start.after a.toList)
    (Position.start.after b.toList)))
  exact ⟨tokens, faults⟩

/-- Twice the indentation, with a line that fits no open block, a bar that goes back to the line
before, and line breaks that count for nothing. -/
theorem tokenize_reindented_twice :
    let a := "do:\n  a\n    # c\n    | b\n\n  let x = [\n1]\n   c\n d\n"
    let b := "do:\n    a\n# c\n        | b\n    let x = [1\n    ]\n      c\n\n  d\n"
    widths (linesOf a) = [0, 2, 4, 2, 3, 1]
      ∧ List.Forall₂ (LineItem.Reindented (2 * ·)) (linesOf a) (linesOf b)
      ∧ unplaced (tokenize a).tokens = unplaced (tokenize b).tokens
      ∧ layoutFaults (tokenize a).errors = layoutFaults (tokenize b).errors := by
  intro a b
  have ascends : Ascends (2 * ·) (0 :: widths (linesOf a)) := fun x _ y _ less ↦ by
    dsimp only
    omega
  have same : List.Forall₂ (LineItem.Reindented (2 * ·)) (linesOf a) (linesOf b) :=
    by decide +kernel
  exact ⟨by decide +kernel, same, tokenize_reindented rfl ascends same⟩

end ProseLang
