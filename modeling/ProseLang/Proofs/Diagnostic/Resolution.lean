import ProseLang.Diagnostic.Sources
import ProseLang.Proofs.Text.Lines
import ProseLang.Text.Slice

/-!
# Order of resolved places

Lines and columns are ordered by line and, on one line, by column, which is the order of the texts
before them (`LineColumn.after_le_iff`). An offset between two characters has the text before it;
one inside a character, or past the end, has the whole text before it (`lineColumnAt_eq`). So
offsets keep their order, except that one inside a character comes after all those behind it that
are between characters (`Overshoots`). A span of a known file resolves to a start before its end
exactly if its start does not overshoot its end, and then to the lines from the one to the other
(`resolve_ordered_iff`).
-/

namespace ProseLang

/-- Places are ordered by line and, on one line, by column. -/
instance : LE LineColumn := ⟨fun p q ↦ p.line < q.line ∨ p.line = q.line ∧ p.column ≤ q.column⟩

namespace LineColumn

private theorem le_def {p q : LineColumn} :
    p ≤ q ↔ p.line < q.line ∨ p.line = q.line ∧ p.column ≤ q.column := Iff.rfl

instance : DecidableLE LineColumn := fun _ _ ↦ decidable_of_iff' _ le_def

private theorem le_trans {p q r : LineColumn} (h : p ≤ q) (h' : q ≤ r) : p ≤ r := by
  rw [le_def] at *
  omega

/-- Every character leads further on. -/
theorem not_advance_le (p : LineColumn) (c : Char) : ¬ p.advance c ≤ p := by
  rw [le_def, advance]
  split <;> simp

private theorem le_advance (p : LineColumn) (c : Char) : p ≤ p.advance c := by
  rw [le_def, advance]
  split <;> simp

private theorem after_append (text more : List Char) :
    after (text ++ more) = more.foldl advance (after text) :=
  List.foldl_append

private theorem le_foldl_advance (p : LineColumn) (text : List Char) :
    p ≤ text.foldl advance p := by
  induction text generalizing p with
  | nil => exact .inr ⟨rfl, Nat.le_refl _⟩
  | cons c text ih => exact le_trans (p.le_advance c) (ih _)

/-- A longer text leads further on. -/
theorem after_le_iff {text before before' : List Char} (h : before <+: text)
    (h' : before' <+: text) :
    after before ≤ after before' ↔ utf8Length before ≤ utf8Length before' := by
  rcases List.prefix_or_prefix_of_prefix h h' with ⟨more, rfl⟩ | ⟨more, rfl⟩
  · rw [after_append, utf8Length_append]
    exact iff_of_true (le_foldl_advance _ _) (Nat.le_add_right _ _)
  · cases more with
    | nil => simp [le_def]
    | cons c more =>
      have pos := Char.utf8Size_pos c
      have further := le_foldl_advance ((after before').advance c) more
      rw [after_append, List.foldl_cons, utf8Length_append, utf8Length_cons]
      refine iff_of_false (fun back ↦ ?_) (by omega)
      exact not_advance_le _ c (le_trans further back)

private theorem one_le_line (text : List Char) : 1 ≤ (after text).line := by
  rw [after_eq]
  exact Nat.le_add_right _ _

private theorem one_le_column (text : List Char) : 1 ≤ (after text).column := by
  rw [after_eq]
  exact Nat.le_add_left _ _

end LineColumn

/-- What stands before an offset. Inside a character and past the end this is the whole text. -/
def textBefore (text : List Char) (offset : Nat) : List Char := (takeBytes? offset text).getD text

/-- Whether an offset is inside a character. -/
def InsideChar (text : List Char) (offset : Nat) : Prop :=
  offset < utf8Length text ∧ takeBytes? offset text = none

/-- Whether an offset is taken for the end of the text since it is inside a character, while another
one is not. -/
def Overshoots (text : List Char) (offset other : Nat) : Prop :=
  InsideChar text offset ∧ other < utf8Length text ∧ ¬ InsideChar text other

instance (text : List Char) (offset : Nat) : Decidable (InsideChar text offset) :=
  inferInstanceAs (Decidable (_ ∧ _))

instance (text : List Char) (offset other : Nat) : Decidable (Overshoots text offset other) :=
  inferInstanceAs (Decidable (_ ∧ _ ∧ _))

variable {text : List Char}

private theorem isPrefix_textBefore (text : List Char) (offset : Nat) :
    textBefore text offset <+: text := by
  rw [textBefore]
  cases cut : takeBytes? offset text with
  | none => exact List.prefix_refl text
  | some before =>
    obtain ⟨rest, -, whole⟩ := takeBytes?_append_dropBytes? cut
    exact ⟨rest, whole⟩

/-- The text before an offset decides about its line and column. -/
theorem lineColumnAt_eq (text : List Char) (offset : Nat) :
    lineColumnAt text offset = .after (textBefore text offset) := by
  rw [textBefore]
  cases cut : takeBytes? offset text with
  | none =>
    refine lineColumnAt_elsewhere fun before rest whole length ↦ ?_
    rw [← whole, ← length, takeBytes?_utf8Length] at cut
    cases cut
  | some before =>
    obtain ⟨rest, -, whole⟩ := takeBytes?_append_dropBytes? cut
    rw [← utf8Length_takeBytes? cut, ← whole, lineColumnAt_boundary]
    rfl

/-- The length of the text before an offset: the offset itself between two characters. -/
theorem utf8Length_textBefore (text : List Char) (offset : Nat) :
    utf8Length (textBefore text offset)
      = if offset < utf8Length text ∧ ¬ InsideChar text offset then offset else utf8Length
      text := by
  rw [textBefore]
  split
  · next between =>
    obtain ⟨before, cut⟩ := Option.ne_none_iff_exists'.1 fun none ↦ between.2 ⟨between.1, none⟩
    rw [cut, Option.getD_some, utf8Length_takeBytes? cut]
  · next other =>
    cases cut : takeBytes? offset text with
    | none => rfl
    | some before =>
      have between : ¬ InsideChar text offset := fun inside ↦ Option.some_ne_none _ (cut ▸ inside.2)
      have length := utf8Length_takeBytes? cut
      obtain ⟨rest, -, rfl⟩ := takeBytes?_append_dropBytes? cut
      rw [Option.getD_some, utf8Length_append]
      have past : ¬ offset < utf8Length (before ++ rest) := fun within ↦ other ⟨within, between⟩
      rw [utf8Length_append] at past
      omega

/-- Offsets keep their order, unless the first one overshoots the second. -/
theorem lineColumnAt_le_iff (text : List Char) {a b : Nat} (h : a ≤ b) :
    lineColumnAt text a ≤ lineColumnAt text b ↔ ¬ Overshoots text a b := by
  rw [lineColumnAt_eq, lineColumnAt_eq,
    LineColumn.after_le_iff (isPrefix_textBefore text a) (isPrefix_textBefore text b),
    utf8Length_textBefore, utf8Length_textBefore, Overshoots]
  by_cases inside : InsideChar text a
  · rw [if_neg fun within ↦ within.2 inside]
    split
    · next between => exact iff_of_false (by omega) fun h ↦ h ⟨inside, between⟩
    · next other => exact iff_of_true (Nat.le_refl _) fun h ↦ other h.2
  · refine iff_of_true ?_ fun h ↦ inside h.1
    split
    · split <;> omega
    · next past =>
      rw [if_neg]
      rintro ⟨within, -⟩
      exact past ⟨by omega, inside⟩

/-- A span of a known file, whatever its offsets, resolves to lines and columns counted from one.
Its start comes before its end unless it overshoots it, and of any two offsets the later one comes
later with the same exception. If the start comes before the end, so does its line, and the span
touches the lines from the one to the other. -/
theorem resolve_ordered_iff {sources : Sources} {file text : String} (start stop : Nat)
    (known : sources.get? file = some text) :
    ∃ r, sources.resolve? (.ofRange file start stop) = some r
      ∧ 1 ≤ r.start.line ∧ 1 ≤ r.start.column
      ∧ (r.start ≤ r.stop ↔ ¬ Overshoots text.toList start (max stop start))
      ∧ (r.start ≤ r.stop → r.start.line ≤ r.stop.line ∧ r.lines
          = ((textLines text.toList).drop (r.start.line - 1)).take (r.stop.line - r.start.line + 1))
      ∧ ∀ a b, a ≤ b →
        (lineColumnAt text.toList a ≤ lineColumnAt text.toList b
          ↔ ¬ Overshoots text.toList a b) := by
  let span := FileSpan.ofRange file start stop
  refine ⟨Sources.resolveIn text.toList span, ?_, ?_, ?_, ?_, fun ordered ↦ ?_, ?_⟩
  · rw [Sources.resolve?]
    change (sources.get? file).map _ = _
    rw [known, Option.map_some]
  · rw [Sources.resolveIn, lineColumnAt_eq]
    exact LineColumn.one_le_line _
  · rw [Sources.resolveIn, lineColumnAt_eq]
    exact LineColumn.one_le_column _
  · exact lineColumnAt_le_iff text.toList span.start_le_stop
  · generalize resolved : Sources.resolveIn text.toList span = r at ordered ⊢
    have forward : r.start.line ≤ r.stop.line := by
      rw [LineColumn.le_def] at ordered
      omega
    refine ⟨forward, ?_⟩
    obtain rfl := resolved
    rw [Sources.resolveIn] at forward ⊢
    dsimp only at forward ⊢
    rw [if_neg (by omega), Nat.sub_add_comm forward]
  · exact fun a b h ↦ lineColumnAt_le_iff text.toList h

/-- The span starts inside of the second line and ends behind the text. -/
theorem resolve_ordered_iff_lines :
    let sources := Sources.add {} "main.prose" "é\nxy\nz"
    sources.get? "main.prose" = some "é\nxy\nz"
      ∧ ∃ r, sources.resolve? (.ofRange "main.prose" 4 99) = some r
        ∧ 1 ≤ r.start.line ∧ 1 ≤ r.start.column ∧ r.start ≤ r.stop ∧ r.start.line ≤ r.stop.line
        ∧ r.lines = [['x', 'y'], ['z']] := by
  intro sources
  have known : sources.get? "main.prose" = some "é\nxy\nz" := by decide
  obtain ⟨r, resolved, line, column, ordered, touched, -⟩ := resolve_ordered_iff 4 99 known
  have before : r.start ≤ r.stop := ordered.2 (by decide)
  refine ⟨known, r, resolved, line, column, before, (touched before).1, ?_⟩
  rw [(touched before).2, ← Option.some.inj resolved]
  decide

/-- A start inside a character comes after an end behind that character, and even on a later
line. -/
theorem overshooting_start :
    let line := Sources.add {} "main.prose" "éa"
    let lines := Sources.add {} "main.prose" "é\nx"
    (∃ r, line.resolve? (.ofRange "main.prose" 1 2) = some r ∧ ¬ r.start ≤ r.stop)
      ∧ ¬ lineColumnAt "éa".toList 1 ≤ lineColumnAt "éa".toList 2
      ∧ ∃ r, lines.resolve? (.ofRange "main.prose" 1 2) = some r ∧ r.stop.line < r.start.line := by
  intro line lines
  exact ⟨⟨_, rfl, by decide⟩, by decide, _, rfl, by decide⟩

end ProseLang
