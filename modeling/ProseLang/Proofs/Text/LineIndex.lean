import ProseLang.Proofs.Text.Lines
import ProseLang.Proofs.Token.Partition

/-!
# The index of lines

Between two characters of a text, offsets and positions are in the same order
(`Position.before_after_iff`), so no two offsets have one line and column. The starts of the lines
lead from a line back to its offset (`lineStart?_eq_some_iff`). So looking an offset up among the
starts finds what walking the text up to it finds, in words: the line by its start and the column by
measuring the text from there (`indexedAt_eq_inWords`). Main statement: `linesIndexed`, for texts of
fewer than `2 ^ 32 - 1` bytes; a text of as many line feeds has a line too many
(`not_linesIndexed_lineFeeds`).
-/

namespace ProseLang

variable {text before : List Char} {offset : Nat}

/-- Whether a byte offset is between two characters of a text, or at one of its ends. -/
def AtBoundary (text : List Char) (offset : Nat) : Prop :=
  ∃ before, before <+: text ∧ utf8Length before = offset

/-- Whether a place is on an earlier line than another one, or before it on the same line. -/
def Position.Before (p q : Position) : Prop :=
  p.line < q.line ∨ p.line = q.line ∧ p.column < q.column

/-! ## Order of positions -/

namespace Position.Before

variable {p q r : Position}

private theorem trans (h : p.Before q) (h' : q.Before r) : p.Before r := by
  unfold Position.Before at *
  omega

private theorem irrefl (p : Position) : ¬ p.Before p := by
  simp [Position.Before]

private theorem advance (p : Position) (c : Char) : p.Before (p.advance c) := by
  have units : 0 < utf16Units c := by
    unfold utf16Units
    split <;> omega
  unfold Position.advance
  split
  · exact .inl (Nat.lt_succ_self _)
  · exact .inr ⟨rfl, Nat.lt_add_of_pos_right units⟩

private theorem after (p : Position) {text : List Char} (h : text ≠ []) :
    p.Before (p.after text) := by
  induction text generalizing p with
  | nil => contradiction
  | cons c text ih =>
    rw [Position.after_cons]
    cases text with
    | nil => exact advance p c
    | cons d text => exact trans (advance p c) (ih _ (by simp))

end Position.Before

/-- Of two beginnings of a text the shorter one, in bytes, ends at the earlier place. -/
theorem Position.before_after_iff {other : List Char} (h : before <+: text) (h' : other <+: text) :
    (start.after before).Before (start.after other) ↔ utf8Length before < utf8Length other := by
  rcases List.prefix_or_prefix_of_prefix h h' with ⟨more, rfl⟩ | ⟨more, rfl⟩
  · rw [after_append, utf8Length_append]
    by_cases none : more = []
    · subst none
      simp [Before.irrefl]
    · have pos := utf8Length_pos none
      exact iff_of_true (.after _ none) (by omega)
  · rw [after_append, utf8Length_append]
    refine iff_of_false (fun further ↦ ?_) (by omega)
    by_cases none : more = []
    · subst none
      exact Before.irrefl _ further
    · exact Before.irrefl _ (.trans further (.after _ none))

/-! ## Cases of an offset -/

private theorem positionAt_min (text : List Char) (offset : Nat) :
    positionAt text (min offset (utf8Length text)) = positionAt text offset := by
  rcases Nat.le_total offset (utf8Length text) with within | past
  · rw [Nat.min_eq_left within]
  · rw [Nat.min_eq_right past, positionAt_past (Nat.le_refl _), positionAt_past past]

/-- An offset, brought back to the end if it is past it, is at a boundary or inside a character. -/
theorem boundary_or_inside (text : List Char) (offset : Nat) :
    (∃ before rest, text = before ++ rest ∧ min offset (utf8Length text) = utf8Length before)
      ∨ ∃ before c rest n, text = before ++ c :: rest ∧ offset = utf8Length before + n ∧ 0 < n
        ∧ n < c.utf8Size := by
  induction text generalizing offset with
  | nil => exact .inl ⟨[], [], rfl, Nat.min_zero _⟩
  | cons c text ih =>
    rcases Nat.lt_or_ge offset c.utf8Size with inside | past
    · rcases Nat.eq_zero_or_pos offset with rfl | pos
      · exact .inl ⟨[], c :: text, rfl, Nat.zero_min _⟩
      · exact .inr ⟨[], c, text, offset, rfl, (Nat.zero_add _).symm, pos, inside⟩
    · rcases ih (offset - c.utf8Size) with ⟨before, rest, rfl, length⟩
        | ⟨before, d, rest, n, rfl, place, bounds⟩
      · refine .inl ⟨c :: before, rest, rfl, ?_⟩
        simp only [utf8Length_cons] at length ⊢
        omega
      · refine .inr ⟨c :: before, d, rest, n, rfl, ?_, bounds⟩
        rw [utf8Length_cons]
        omega

/-- No cut is made inside a character. -/
theorem takeBytes?_inside (before : List Char) (c : Char) (rest : List Char) {n : Nat} (pos : 0 < n)
    (inside : n < c.utf8Size) : takeBytes? (utf8Length before + n) (before ++ c :: rest) =
    none := by
  cases cut : takeBytes? (utf8Length before + n) (before ++ c :: rest) with
  | none => rfl
  | some taken =>
    have length := utf8Length_takeBytes? cut
    obtain ⟨left, -, whole⟩ := takeBytes?_append_dropBytes? cut
    -- the characters taken end before `c` or take all of it
    have shorter : taken <+: before ∨ before ++ [c] <+: taken := by
      rcases List.append_eq_append_iff.1 whole with ⟨more, rfl, -⟩ | ⟨more, rfl, follow⟩
      · exact .inl (List.prefix_append _ _)
      · cases more with
        | nil => exact .inl (by simp)
        | cons d more =>
          obtain ⟨rfl, -⟩ := List.cons.inj follow
          exact .inr ⟨more, by simp⟩
    rcases shorter with ⟨more, rfl⟩ | ⟨more, rfl⟩ <;> simp only [utf8Length_append, utf8Length_cons,
      utf8Length_nil] at length <;> omega

private theorem sliceBytes?_inside (before line : List Char) (c : Char) (rest : List Char) {n : Nat}
    (pos : 0 < n) (inside : n < c.utf8Size) :
    sliceBytes? (utf8Length before) (utf8Length (before ++ line) + n) (before ++ line ++ c :: rest)
      = none := by
  have length : utf8Length (before ++ line) + n - utf8Length before = utf8Length line + n := by
    rw [utf8Length_append]
    omega
  rw [sliceBytes?, List.append_assoc, dropBytes?_utf8Length, Option.bind_some, length,
    takeBytes?_inside line c rest pos inside, ite_self]

/-! ## Starts of lines -/

private theorem utf8Length_lt_concat (text : List Char) (c : Char) :
    utf8Length text < utf8Length (text ++ [c]) := by
  have pos := Char.utf8Size_pos c
  rw [utf8Length_append, utf8Length_cons, utf8Length_nil]
  omega

/-- A start that one more character adds is behind that character. -/
theorem eq_of_mem_addedStart {c : Char} {start : Nat}
    (h : start ∈ if c = '\n' then [utf8Length (text ++ [c])] else []) :
    start = utf8Length (text ++ [c]) :=
  List.mem_singleton.1 (List.mem_ite_nil_right.1 h).2

private theorem le_of_mem_lineStarts {start : Nat} (h : start ∈ lineStarts text) :
    start ≤ utf8Length text := by
  induction text using List.reverseRecOn with
  | nil => simpa [lineStarts_nil] using h
  | append_singleton text c ih =>
    rw [lineStarts_concat, List.mem_append] at h
    rcases h with earlier | last
    · exact Nat.le_trans (ih earlier) (Nat.le_of_lt (utf8Length_lt_concat text c))
    · exact Nat.le_of_eq (eq_of_mem_addedStart last)

private theorem pairwise_lineStarts (text : List Char) : (lineStarts text).Pairwise (· < ·) := by
  induction text using List.reverseRecOn with
  | nil => simp [lineStarts_nil]
  | append_singleton text c ih =>
    rw [lineStarts_concat, List.pairwise_append]
    refine ⟨ih, ?_, fun start member last isLast ↦ ?_⟩
    · split <;> simp
    · rw [eq_of_mem_addedStart isLast]
      exact Nat.lt_of_le_of_lt (le_of_mem_lineStarts member) (utf8Length_lt_concat text c)

/-- What follows in a text only adds starts that come later. -/
theorem lineStarts_append (before rest : List Char) :
    ∃ later, lineStarts (before ++ rest) = lineStarts before ++ later
      ∧ ∀ start ∈ later, utf8Length before < start := by
  induction rest using List.reverseRecOn with
  | nil => exact ⟨[], by simp⟩
  | append_singleton rest c ih =>
    obtain ⟨later, starts, isLater⟩ := ih
    rw [← List.append_assoc, lineStarts_concat, starts, List.append_assoc]
    refine ⟨_, rfl, fun start member ↦ ?_⟩
    rcases List.mem_append.1 member with earlier | last
    · exact isLater start earlier
    · rw [eq_of_mem_addedStart last]
      refine Nat.lt_of_le_of_lt ?_ (utf8Length_lt_concat (before ++ rest) c)
      rw [utf8Length_append]
      exact Nat.le_add_right _ _

/-- The last start of a text is where its last line begins. -/
theorem getLast?_lineStarts {line : List Char} (first : lastLine before = []) (h : '\n' ∉ line) :
    (lineStarts (before ++ line)).getLast? = some (utf8Length before) := by
  induction line using List.reverseRecOn with
  | nil =>
    rw [List.append_nil]
    induction before using List.reverseRecOn with
    | nil => rfl
    | append_singleton before c _ =>
      have feed : c = '\n' := by
        by_contra other
        rw [lastLine_append before (by simpa [eq_comm] using other)] at first
        simp at first
      rw [lineStarts_concat, if_pos feed, List.getLast?_concat]
  | append_singleton line c ih =>
    have apart : '\n' ∉ line ∧ c ≠ '\n' := by simpa [eq_comm] using h
    rw [← List.append_assoc, lineStarts_concat, if_neg apart.2, List.append_nil]
    exact ih apart.1

private theorem notMem_lastLine (text : List Char) : '\n' ∉ lastLine text := fun member ↦ by
  simpa using List.mem_rtakeWhile_imp member

/-- A text is what comes before its last line and its last line. -/
theorem exists_append_lastLine (text : List Char) :
    ∃ before, text = before ++ lastLine text ∧ lastLine before = [] := by
  induction text using List.reverseRecOn with
  | nil => exact ⟨[], rfl, rfl⟩
  | append_singleton text c ih =>
    by_cases feed : c = '\n'
    · subst feed
      exact ⟨text ++ ['\n'], by simp [lastLine_lineFeed], lastLine_lineFeed text⟩
    · obtain ⟨before, whole, first⟩ := ih
      rw [lastLine_append text (by simpa [eq_comm] using feed)]
      exact ⟨before, by rw [← List.append_assoc, ← whole], first⟩

/-- The line after the line feeds of a beginning of a text starts where the last line of that
beginning does. -/
theorem lineStart?_append {line : List Char} (first : lastLine before = []) (h : '\n' ∉ line)
    (rest : List Char) :
    lineStart? (before ++ line ++ rest) (before.count '\n' + 1) = some (utf8Length before) := by
  obtain ⟨later, starts, -⟩ := lineStarts_append (before ++ line) rest
  have length : (lineStarts (before ++ line)).length = before.count '\n' + 1 := by
    rw [← lineCount, lineCount_eq, List.count_append, List.count_eq_zero.2 h, Nat.add_zero]
  have last := getLast?_lineStarts first h
  rw [List.getLast?_eq_getElem?, length, Nat.add_sub_cancel] at last
  rw [lineStart?, starts, List.getElem?_append_left (by omega), last]

private theorem exists_beginning {n : Nat} (h : n ≤ text.count '\n') :
    ∃ before rest, text = before ++ rest ∧ before.count '\n' = n ∧ lastLine before = [] := by
  induction text using List.reverseRecOn with
  | nil => exact ⟨[], [], rfl, (Nat.le_zero.1 h).symm, rfl⟩
  | append_singleton text c ih =>
    rcases Nat.lt_or_ge (text.count '\n') n with more | enough
    · by_cases feed : c = '\n'
      · subst feed
        refine ⟨text ++ ['\n'], [], by simp, ?_, lastLine_lineFeed text⟩
        simp only [List.count_append, List.count_singleton_self] at h ⊢
        omega
      · simp [feed] at h
        omega
    · obtain ⟨before, rest, rfl, counts, first⟩ := ih enough
      exact ⟨before, rest ++ [c], by simp, counts, first⟩

/-- A line starts after the beginning of the text that has as many line feeds as there are lines
before it, and the last of them at its end. -/
theorem lineStart?_eq_some_iff {n start : Nat} :
    lineStart? text (n + 1) = some start
      ↔ ∃ before rest, text = before ++ rest ∧ before.count '\n' = n ∧ lastLine before = []
        ∧ utf8Length before = start := by
  refine ⟨fun found ↦ ?_, ?_⟩
  · have within : n < lineCount text := (List.getElem?_eq_some_iff.1 found).1
    rw [lineCount_eq] at within
    obtain ⟨before, rest, rfl, counts, first⟩ := exists_beginning (Nat.le_of_lt_succ within)
    have known := lineStart?_append first List.not_mem_nil rest
    rw [List.append_nil, counts, found] at known
    exact ⟨before, rest, rfl, counts, first, (Option.some.inj known).symm⟩
  · rintro ⟨before, rest, rfl, rfl, first, rfl⟩
    simpa using lineStart?_append first List.not_mem_nil rest

/-- The last line of a beginning of a text: where it starts in the text, and the text between. -/
theorem exists_lineStart (before rest : List Char) :
    ∃ head, before = head ++ lastLine before
      ∧ lineStart? (before ++ rest) (before.count '\n' + 1) = some (utf8Length head) := by
  obtain ⟨head, whole, first⟩ := exists_append_lastLine before
  have counts : before.count '\n' = head.count '\n' := by
    rw [whole, List.count_append, List.count_eq_zero.2 (notMem_lastLine before), Nat.add_zero]
  have found := lineStart?_append first (notMem_lastLine before) rest
  rw [← whole, ← counts] at found
  exact ⟨head, whole, found⟩

/-! ## Looking an offset up -/

private theorem positionAt_of_min {rest : List Char}
    (h : min offset (utf8Length (before ++ rest)) = utf8Length before) :
    positionAt (before ++ rest) offset = Position.start.after before := by
  rw [← positionAt_min, h, positionAt_boundary]

private theorem linesUpTo_eq {later : List Nat}
    (starts : lineStarts text = lineStarts before ++ later)
    (upTo : utf8Length before ≤ offset) (isLater : ∀ start ∈ later, offset < start) :
    linesUpTo text offset = before.count '\n' + 1 := by
  have earlier : ∀ start ∈ lineStarts before, decide (start ≤ offset) = true := fun start member ↦
    decide_eq_true (Nat.le_trans (le_of_mem_lineStarts member) upTo)
  have stops : later.takeWhile (· ≤ offset) = [] := by
    cases later with
    | nil => rfl
    | cons start later =>
      have apart := isLater start List.mem_cons_self
      exact List.takeWhile_cons_of_neg (by simpa using apart)
  rw [linesUpTo, starts, List.takeWhile_append_of_pos earlier, stops, List.append_nil, ← lineCount,
    lineCount_eq]

/-- What is looked up where the line is known: its number in a word, and the column of what is cut
out. -/
theorem indexedAt_of_line {place index start : Nat} {line : Option (List Char)}
    (within : min offset (utf8Length text) = place) (upTo : linesUpTo text place = index + 1)
    (starts : lineStart? text (index + 1) = some start)
    (cut : sliceBytes? start place text = line) : indexedAt text offset
      = ⟨place, (index + 1) % wordLimit, (line.map utf16Length).getD 0 % wordLimit⟩ := by
  rw [lineStart?] at starts
  simp only [indexedAt, within, upTo, Nat.add_sub_cancel, starts, Option.getD_some, cut]
  rw [UInt32.toNat_add, UInt32.toNat_ofNat', UInt32.toNat_ofNat']
  simp [wordLimit]

/-- Looking an offset up comes to the position that walking to it comes to, in words. -/
theorem indexedAt_eq_inWords (text : List Char) (offset : Nat) :
    indexedAt text offset = (positionAt text offset).inWords := by
  rcases boundary_or_inside text offset with
    ⟨before, rest, rfl, length⟩ | ⟨before, c, rest, n, rfl, rfl, pos, inside⟩
  · obtain ⟨head, whole, start⟩ := exists_lineStart before rest
    obtain ⟨later, starts, isLater⟩ := lineStarts_append before rest
    have slice := sliceBytes?_append head (lastLine before) rest
    rw [← whole] at slice
    rw [positionAt_of_min length, Position.after_start,
      indexedAt_of_line length (linesUpTo_eq starts (Nat.le_refl _) isLater) start slice]
    simp [Position.inWords, Nat.add_comm 1]
  · -- a character of more than one byte is no line feed, so the lines up to the offset are those up
    -- to the character
    have other : c ≠ '\n' := by
      rintro rfl
      rw [show '\n'.utf8Size = 1 from rfl] at inside
      omega
    obtain ⟨head, whole, start⟩ := exists_lineStart before (c :: rest)
    obtain ⟨later, starts, isLater⟩ := lineStarts_append (before ++ [c]) rest
    rw [lineStarts_concat, if_neg other, List.append_nil, List.append_assoc,
      List.singleton_append] at starts
    have within : utf8Length before + n ≤ utf8Length (before ++ c :: rest) := by
      simp only [utf8Length_append, utf8Length_cons]
      omega
    have beyond : ∀ start ∈ later, utf8Length before + n < start := fun start member ↦ by
      have := isLater start member
      simp only [utf8Length_append, utf8Length_cons, utf8Length_nil] at this
      omega
    have slice := sliceBytes?_inside head (lastLine before) c rest pos inside
    rw [← whole] at slice
    rw [positionAt_inside before c rest pos inside, Position.after_start,
      indexedAt_of_line (Nat.min_eq_left within) (linesUpTo_eq starts (Nat.le_add_right _ _) beyond)
        start slice]
    simp [Position.inWords, Nat.add_comm 1]

/-! ## The index of a text -/

/-- What the index of the lines of a text says of offsets, lines and columns. -/
structure LinesIndexed (text : List Char) : Prop where
  /-- The starts of the lines ascend, so the line of an offset may be searched for. -/
  sorted : (lineStarts text).Pairwise (· < ·)
  increasing : ∀ a b, AtBoundary text a → AtBoundary text b →
    (a < b ↔ (indexedAt text a).Before (indexedAt text b))
  injective : ∀ a b, AtBoundary text a → AtBoundary text b →
    (indexedAt text a).line = (indexedAt text b).line →
    (indexedAt text a).column = (indexedAt text b).column → a = b
  /-- Wherever an offset is, its line starts at it or before it. -/
  found : ∀ offset, ∃ start, lineStart? text (indexedAt text offset).line = some start
    ∧ start ≤ (indexedAt text offset).offset
  /-- From there to an offset between characters it is one line of the length of the column. -/
  measured : ∀ offset, AtBoundary text offset → ∃ start line,
    lineStart? text (indexedAt text offset).line = some start
      ∧ sliceBytes? start offset text = some line ∧ '\n' ∉ line
      ∧ utf16Length line = (indexedAt text offset).column
  /-- The bytes inside a character are on its line, but have no column of their own. -/
  inside : ∀ before c rest n, text = before ++ c :: rest → 0 < n → n < c.utf8Size →
    indexedAt text (utf8Length before + n)
      = ⟨utf8Length before + n, before.count '\n' + 1, 0⟩
  returned : ∀ n start, lineStart? text n = some start → indexedAt text start = ⟨start, n, 0⟩
  defined : ∀ n, (lineStart? text n).isSome ↔ 1 ≤ n ∧ n ≤ lineCount text
  counted : lineCount text = text.count '\n' + 1

private theorem positionAt_before_iff {a b : Nat} (ha : AtBoundary text a)
    (hb : AtBoundary text b) : a < b ↔ (positionAt text a).Before (positionAt text b) := by
  obtain ⟨before, ⟨rest, rfl⟩, rfl⟩ := ha
  obtain ⟨other, ⟨rest', whole⟩, rfl⟩ := hb
  rw [positionAt_boundary, ← Position.before_after_iff (List.prefix_append before rest)
    ⟨rest', whole⟩, ← whole, positionAt_boundary]

/-- The line of an offset is counted by the line feeds before it, and its column is at most as long
as the text is there. -/
theorem line_positionAt (text : List Char) (offset : Nat) :
    ∃ before rest, text = before ++ rest ∧ utf8Length before ≤ (positionAt text offset).offset
      ∧ (positionAt text offset).line = before.count '\n' + 1
      ∧ (positionAt text offset).column ≤ utf8Length before := by
  rcases boundary_or_inside text offset with
    ⟨before, rest, rfl, length⟩ | ⟨before, c, rest, n, rfl, rfl, pos, inside⟩
  · refine ⟨before, rest, rfl, ?_⟩
    have column := Position.column_after_le .start before
    rw [positionAt_of_min length, Position.after_start] at *
    exact ⟨Nat.le_refl _, Nat.add_comm .., by simpa [Position.start] using column⟩
  · refine ⟨before, c :: rest, rfl, ?_⟩
    rw [positionAt_inside before c rest pos inside, Position.after_start]
    exact ⟨Nat.le_add_right .., Nat.add_comm .., Nat.zero_le _⟩

private theorem AtBoundary.eq_of_line_of_column {a b : Nat} (ha : AtBoundary text a)
    (hb : AtBoundary text b) (line : (positionAt text a).line = (positionAt text b).line)
    (column : (positionAt text a).column = (positionAt text b).column) : a = b := by
  have le : ¬ a < b := fun further ↦ by
    have := (positionAt_before_iff ha hb).1 further
    unfold Position.Before at this
    omega
  have ge : ¬ b < a := fun further ↦ by
    have := (positionAt_before_iff hb ha).1 further
    unfold Position.Before at this
    omega
  omega

private theorem exists_lineStart?_positionAt (text : List Char) (offset : Nat) :
    ∃ start, lineStart? text (positionAt text offset).line = some start
      ∧ start ≤ (positionAt text offset).offset := by
  obtain ⟨before, rest, whole, within, line, -⟩ := line_positionAt text offset
  obtain ⟨head, split, start⟩ := exists_lineStart before rest
  rw [← whole, ← line] at start
  refine ⟨_, start, Nat.le_trans ?_ within⟩
  rw [split, utf8Length_append]
  exact Nat.le_add_right _ _

private theorem AtBoundary.exists_line (h : AtBoundary text offset) :
    ∃ start line, lineStart? text (positionAt text offset).line = some start
      ∧ sliceBytes? start offset text = some line ∧ '\n' ∉ line
      ∧ utf16Length line = (positionAt text offset).column := by
  obtain ⟨before, ⟨rest, rfl⟩, rfl⟩ := h
  obtain ⟨head, split, start⟩ := exists_lineStart before rest
  have slice := sliceBytes?_append head (lastLine before) rest
  rw [← split] at slice
  rw [positionAt_boundary, Position.after_start, Nat.add_comm 1]
  exact ⟨_, _, start, slice, notMem_lastLine before, rfl⟩

private theorem positionAt_lineStart {n start : Nat} (h : lineStart? text n = some start) :
    positionAt text start = ⟨start, n, 0⟩ := by
  cases n with
  | zero => cases h
  | succ n =>
    obtain ⟨before, rest, rfl, rfl, first, rfl⟩ := lineStart?_eq_some_iff.1 h
    rw [positionAt_boundary, Position.after_start, first, Nat.add_comm 1, utf16Length_nil]

private theorem isSome_lineStart? (text : List Char) (n : Nat) :
    (lineStart? text n).isSome ↔ 1 ≤ n ∧ n ≤ lineCount text := by
  cases n with
  | zero => exact iff_of_false Bool.false_ne_true fun h ↦ absurd h.1 (Nat.not_succ_le_zero 0)
  | succ n =>
    rw [lineStart?, isSome_getElem?]
    exact ⟨fun h ↦ ⟨Nat.succ_pos n, h⟩, And.right⟩

private theorem length_le_utf8Length (text : List Char) : text.length ≤ utf8Length text := by
  induction text with
  | nil => exact Nat.le_refl _
  | cons c text ih =>
    have := Char.utf8Size_pos c
    rw [List.length_cons, utf8Length_cons]
    omega

/-- In a text of fewer than `2 ^ 32 - 1` bytes every line and every column fits into a word. -/
theorem inWords_positionAt (short : utf8Length text < wordLimit - 1) (offset : Nat) :
    (positionAt text offset).inWords = positionAt text offset := by
  obtain ⟨before, rest, rfl, -, line, column⟩ := line_positionAt text offset
  have feeds : before.count '\n' ≤ before.length := List.count_le_length
  have bytes := length_le_utf8Length before
  rw [utf8Length_append] at short
  exact Position.inWords_of_lt (by omega) (by omega)

/-- The index of the lines of a text of fewer than `2 ^ 32 - 1` bytes leads from offsets to lines
and columns in their order, and from the lines back; no number in it is too long for a word. -/
theorem linesIndexed (text : List Char) (short : utf8Length text < wordLimit - 1) :
    LinesIndexed text ∧ ∀ offset, indexedAt text offset = positionAt text offset := by
  have lossless (offset : Nat) : indexedAt text offset = positionAt text offset :=
    (indexedAt_eq_inWords text offset).trans (inWords_positionAt short offset)
  refine ⟨?_, lossless⟩
  constructor
  case sorted => exact pairwise_lineStarts text
  case defined => exact isSome_lineStart? text
  case counted => exact lineCount_eq text
  all_goals simp only [lossless]
  case increasing => exact fun _ _ ↦ positionAt_before_iff
  case injective => exact fun _ _ ↦ AtBoundary.eq_of_line_of_column
  case found => exact exists_lineStart?_positionAt text
  case measured => exact fun _ ↦ AtBoundary.exists_line
  case inside =>
    rintro before c rest n rfl pos inside
    rw [positionAt_inside before c rest pos inside, Position.after_start, Nat.add_comm 1]
  case returned => exact fun _ _ ↦ positionAt_lineStart

/-- A text with a character of two bytes and one of four bytes and two UTF-16 units. -/
theorem linesIndexed_sample :
    utf8Length ['é', '\n', '𝄞', 'x'] < wordLimit - 1 ∧ LinesIndexed ['é', '\n', '𝄞', 'x']
      ∧ ∀ offset, indexedAt ['é', '\n', '𝄞', 'x'] offset = positionAt
      ['é', '\n', '𝄞', 'x'] offset :=
  ⟨by decide, linesIndexed _ (by decide)⟩

example : indexedAt ['é', '\n', '𝄞', 'x'] 7 = ⟨7, 2, 2⟩ := by decide

/-! ## A line too many -/

/-- Line feeds take a byte each. -/
theorem utf8Length_lineFeeds (n : Nat) : utf8Length (List.replicate n '\n') = n := by
  induction n with
  | zero => rfl
  | succ n ih =>
    rw [List.replicate_succ, utf8Length_cons, ih]
    exact Nat.add_comm 1 n

/-- Every line feed leads to the start of the next line. -/
theorem after_lineFeeds (n : Nat) : Position.start.after (List.replicate n '\n')
    = ⟨n, n + 1, 0⟩ := by
  induction n with
  | zero => rfl
  | succ n ih =>
    rw [List.replicate_succ', Position.after_append, ih]
    rfl

private theorem indexedAt_lineFeeds (n : Nat) :
    indexedAt (List.replicate n '\n') n = ⟨n, (n + 1) % wordLimit, 0⟩ := by
  have length := utf8Length_lineFeeds n
  rw [indexedAt_eq_inWords, positionAt_past (Nat.le_of_eq length), after_lineFeeds]
  rfl

/-- The end of a text of `2 ^ 32 - 1` line feeds is on the line after line `2 ^ 32 - 1`, and is
recorded on line zero, before the start of the text. Inside a character the column does not measure
the line: there is a unit before the `é`. -/
theorem not_linesIndexed_lineFeeds :
    (utf8Length (List.replicate (wordLimit - 1) '\n') < wordLimit
      ∧ ¬ LinesIndexed (List.replicate (wordLimit - 1) '\n'))
      ∧ indexedAt ['a', 'é'] 2 = ⟨2, 1, 0⟩ ∧ lineStart? ['a', 'é'] 1 = some 0
      ∧ utf16Length ['a'] = 1 := by
  refine ⟨⟨by rw [utf8Length_lineFeeds]; decide, fun indexed ↦ ?_⟩, by decide⟩
  obtain ⟨start, found, -⟩ := indexed.found (wordLimit - 1)
  rw [indexedAt_lineFeeds, show (wordLimit - 1 + 1) % wordLimit = 0 by decide] at found
  cases found

end ProseLang
