import ProseLang.Proofs.Token.Partition

/-!
# Interpolated names in texts

A string literal is read off the characters between its quotes, and the names in braces are cut out
of these one after the other. So each of them lies within its literal, and the text that it spans is
the name in its braces (`holes_tokenize`).
-/

namespace ProseLang

/-! ## Pieces -/

/-- What is read as the name in braces is one. -/
theorem isHoleName_of_holeName? {body name rest : List Char}
    (h : holeName? body = some (name, rest)) : isHoleName name := by
  unfold holeName? at h
  split at h
  · dsimp only at h
    split at h
    · next isName =>
      cases h
      exact isName
    · cases h
  · cases h

/-- What may not stand in a name is not in one. -/
theorem not_mem_of_isHoleName {name : List Char} {d : Char} (h : isHoleName name)
    (other : (isNameStart d || isNameChar d || d = '-') = false) : d ∉ name := by
  cases name with
  | nil => exact List.not_mem_nil
  | cons c name =>
    simp only [isHoleName, Bool.and_eq_true, List.all_eq_true] at h
    rw [Bool.or_assoc, Bool.or_eq_false_iff] at other
    rw [List.mem_cons, not_or]
    refine ⟨?_, fun member ↦ ?_⟩
    · rintro rfl
      exact Bool.false_ne_true (other.1.symm.trans h.1)
    · exact Bool.false_ne_true (other.2.symm.trans (h.2 d member))

/-- A name in braces is one. -/
theorem Piece.isHoleName_of_mem_read {body name : List Char} (h : hole name ∈ read body) :
    isHoleName name := by
  fun_induction read body with
  | case1 => cases h
  | case2 c rest ih =>
    rcases List.mem_cons.1 h with h | h
    · cases h
    · exact ih h
  | case3 rest name' rest' found _ _ ih =>
    rcases List.mem_cons.1 h with h | h
    · cases h
      exact isHoleName_of_holeName? found
    · exact ih h
  | case4 rest found _ ih | case5 c rest _ _ ih =>
    rcases List.mem_cons.1 h with h | h
    · cases h
    · exact ih h

/-- A piece that is found somewhere in a string is one of its pieces. -/
theorem Piece.mem_of_mem_locate {p : Position} {xs : List Piece} {x : Piece × Span}
    (h : x ∈ locate p xs) : x.1 ∈ xs := by
  induction xs generalizing p with
  | nil => cases h
  | cons y xs ih =>
    rw [locate] at h
    rcases List.mem_cons.1 h with rfl | h
    · exact List.mem_cons_self
    · exact List.mem_cons_of_mem y (ih h)

/-- A located piece spans its source. -/
theorem Piece.span_of_mem_locate {p : Position} {xs : List Piece} {x : Piece} {s : Span}
    (h : (x, s) ∈ locate p xs) :
    ∃ before after, xs.flatMap source = before ++ x.source ++ after
      ∧ s = ⟨p.after before, p.after (before ++ x.source)⟩ := by
  induction xs generalizing p with
  | nil => cases h
  | cons y xs ih =>
    rw [locate] at h
    rcases List.mem_cons.1 h with h | h
    · cases h
      exact ⟨[], xs.flatMap source, rfl, rfl⟩
    · obtain ⟨before, after, cut, place⟩ := ih h
      refine ⟨y.source ++ before, after, ?_, ?_⟩
      · rw [List.flatMap_cons, cut]
        simp only [List.append_assoc]
      · rw [place, List.append_assoc, Position.after_append p, Position.after_append p]

/-- Located pieces stand one after the other. -/
theorem Piece.ordered_locate (p : Position) (xs : List Piece) :
    (locate p xs).Pairwise fun a b ↦ a.2.stop.offset ≤ b.2.start.offset := by
  induction xs generalizing p with
  | nil => exact .nil
  | cons x xs ih =>
    refine .cons (fun y hy ↦ ?_) (ih _)
    obtain ⟨before, after, -, place⟩ := span_of_mem_locate hy
    rw [place, Position.offset_after _ before]
    exact Nat.le_add_right _ _

/-- A name in braces, as it is written. -/
def holeText (name : String) : List Char := '\x7b' :: name.toList ++ ['\x7d']

namespace Segment

private theorem mem_of_hole_mem_consText {text : List Char} {segments : List Segment}
    {name : String}
    {span : Span} (h : hole name span ∈ consText text segments) : hole name span ∈ segments := by
  unfold consText at h
  split at h
  all_goals
    rcases List.mem_cons.1 h with h | h
    · cases h
  · exact List.mem_cons_of_mem _ h
  · exact h

/-- An interpolated name is a piece. -/
theorem hole_mem_ofPieces {pieces : List (Piece × Span)} {name : String} {span : Span}
    (h : hole name span ∈ ofPieces pieces) : (.hole name.toList, span) ∈ pieces := by
  fun_induction ofPieces pieces with
  | case1 => cases h
  | case2 name' span' pieces ih =>
    rcases List.mem_cons.1 h with h | h
    · cases h
      rw [String.toList_ofList]
      exact List.mem_cons_self
    · exact List.mem_cons_of_mem _ (ih h)
  | case3 piece span' pieces _ ih =>
    exact List.mem_cons_of_mem _ (ih (mem_of_hole_mem_consText h))

/-- Whether one segment ends before another starts, if both are interpolated names. -/
def Before (a b : Segment) : Prop :=
  ∀ n s m t, a = hole n s → b = hole m t → s.stop.offset ≤ t.start.offset

private theorem pairwise_consText {text : List Char} {segments : List Segment}
    (h : segments.Pairwise Before) : (consText text segments).Pairwise Before := by
  unfold consText
  split
  · exact .cons (by rintro _ _ _ _ _ _ ⟨⟩) (List.pairwise_cons.1 h).2
  · exact .cons (by rintro _ _ _ _ _ _ ⟨⟩) h

private theorem pairwise_ofPieces {pieces : List (Piece × Span)}
    (h : pieces.Pairwise fun a b ↦ a.2.stop.offset ≤ b.2.start.offset) :
    (ofPieces pieces).Pairwise Before := by
  fun_induction ofPieces pieces with
  | case1 => exact .nil
  | case2 name span pieces ih =>
    obtain ⟨first, rest⟩ := List.pairwise_cons.1 h
    refine .cons (fun b hb n s m t isFirst isLater ↦ ?_) (ih rest)
    cases isFirst
    subst isLater
    exact first _ (hole_mem_ofPieces hb)
  | case3 piece span pieces _ ih => exact pairwise_consText (ih (List.pairwise_cons.1 h).2)

end Segment

namespace StringLiteral

/-- A literal as it is written. -/
def written (triple : Bool) (body : List Char) : List Char := quotes triple ++ body ++ quotes triple

/-- An interpolated name stands between the quotes of its literal. -/
theorem exists_of_mem_holes {start : Position} {triple : Bool} {body : List Char}
    {hole : String × Span} (h : hole ∈ (decode start triple body).holes) :
    ∃ before after, written triple body = before ++ holeText hole.1 ++ after
      ∧ hole.2 = ⟨start.after before, start.after (before ++ holeText hole.1)⟩ := by
  obtain ⟨segment, member, found⟩ := List.mem_filterMap.1 h
  cases segment with
  | text t => cases found
  | hole name span =>
    cases found
    obtain ⟨before, after, cut, place⟩ :=
      Piece.span_of_mem_locate (Segment.hole_mem_ofPieces member)
    rw [Piece.source_read] at cut
    refine ⟨quotes triple ++ before, after ++ quotes triple, ?_, ?_⟩
    · rw [written, cut]
      simp only [List.append_assoc]
      rfl
    · rw [place, List.append_assoc, Position.after_append start, Position.after_append start]
      rfl

/-- The interpolated names of a literal stand one after the other. -/
theorem ordered_holes (start : Position) (triple : Bool) (body : List Char) :
    (decode start triple body).holes.Pairwise fun a b ↦ a.2.stop.offset ≤ b.2.start.offset := by
  refine List.pairwise_filterMap.2 ((Segment.pairwise_ofPieces (Piece.ordered_locate _ _)).imp ?_)
  rintro (_ | ⟨n, s⟩) (_ | ⟨m, t⟩) before _ ha _ hb <;> cases ha <;> cases hb
  exact before n s m t rfl rfl

/-- An escape stands between the quotes of its literal. -/
theorem exists_of_mem_escapes {start : Position} {triple : Bool} {body : List Char} {e : Escape}
    (h : e ∈ (decode start triple body).escapes) :
    ∃ before inner after, written triple body = before ++ inner ++ after
      ∧ e.span = ⟨start.after before, start.after (before ++ inner)⟩ := by
  obtain ⟨⟨piece, span⟩, member, found⟩ := List.mem_filterMap.1 h
  have isSpan : e.span = span := by
    cases piece <;> cases found
    rfl
  obtain ⟨before, after, cut, place⟩ := Piece.span_of_mem_locate member
  rw [Piece.source_read] at cut
  refine ⟨quotes triple ++ before, piece.source, after ++ quotes triple, ?_, ?_⟩
  · rw [written, cut]
    simp only [List.append_assoc]
  · rw [isSpan, place, List.append_assoc, Position.after_append start, Position.after_append start]

end StringLiteral

/-! ## Tokens -/

/-- A lexeme is the first of what is left of its text. -/
theorem exists_cut_of_mem_lexemes {p : Position} {text : List Char} {l : LexemeAt}
    (h : l ∈ lexemes p text) : ∃ before c rest, text = before ++ c :: rest
      ∧ l = ⟨(Cut.first c rest).lexeme, (Cut.first c rest).taken,
          ⟨p.after before, p.after (before ++ (Cut.first c rest).taken)⟩⟩ := by
  fun_induction lexemes p text with
  | case1 => cases h
  | case2 p c text cut ih =>
    rcases List.mem_cons.1 h with rfl | h
    · exact ⟨[], c, text, rfl, rfl⟩
    · obtain ⟨before, d, rest, whole, same⟩ := ih h
      refine ⟨cut.taken ++ before, d, rest, ?_, ?_⟩
      · rw [List.append_assoc, ← whole, cut.taken_append_rest]
      · rw [same, List.append_assoc, Position.after_append p, Position.after_append p]

/-- A lexeme spans its characters. -/
theorem span_of_mem_lexemes {p : Position} {text : List Char} {l : LexemeAt}
    (h : l ∈ lexemes p text) :
    ∃ before after, text = before ++ l.text ++ after
      ∧ l.span = ⟨p.after before, p.after (before ++ l.text)⟩ := by
  obtain ⟨before, c, rest, whole, rfl⟩ := exists_cut_of_mem_lexemes h
  refine ⟨before, (Cut.first c rest).rest, ?_, rfl⟩
  rw [whole, List.append_assoc, (Cut.first c rest).taken_append_rest]

/-- A string token is read off the text that it spans. -/
theorem string_mem_tokenize {source : String} {literal : StringLiteral} {span : Span}
    (h : ⟨.string literal, span⟩ ∈ visible (tokenize source).tokens) :
    ∃ before after triple body,
      source.toList = before ++ StringLiteral.written triple body ++ after
        ∧ span = ⟨Position.start.after before,
            Position.start.after (before ++ StringLiteral.written triple body)⟩
        ∧ literal = .decode span.start triple body := by
  rw [tokenize, visible_tokenizeChars] at h
  obtain ⟨l, hl, token⟩ := List.mem_filterMap.1 h
  obtain ⟨before, after, whole, place⟩ := span_of_mem_lexemes hl
  have written := isWritten_of_mem_lexemes hl
  unfold LexemeAt.token? at token
  split at token <;> cases token
  next triple body quoted =>
  rw [quoted] at written
  have body_eq : StringLiteral.written triple body = l.text := written
  exact ⟨before, after, triple, body, by rw [body_eq, whole], by rw [body_eq, place], rfl⟩

/-- An interpolated name lies within its string, and spans the name in its braces. -/
theorem holes_tokenize {source : String} {literal : StringLiteral} {span : Span}
    (h : ⟨.string literal, span⟩ ∈ visible (tokenize source).tokens) :
    ∀ hole ∈ literal.holes,
      (span.start.offset ≤ hole.2.start.offset ∧ hole.2.start.offset < hole.2.stop.offset
        ∧ hole.2.stop.offset ≤ span.stop.offset)
      ∧ sliceBytes? hole.2.start.offset hole.2.stop.offset source.toList
        = some (holeText hole.1) := by
  intro hole hhole
  obtain ⟨before, after, triple, body, whole, place, rfl⟩ := string_mem_tokenize h
  obtain ⟨left, right, cut, inner⟩ := StringLiteral.exists_of_mem_holes hhole
  have room : 0 < utf8Length (holeText hole.1) := utf8Length_pos nofun
  have slice := sliceBytes?_append (before ++ left) (holeText hole.1) (right ++ after)
  rw [inner, place, whole, cut]
  simp only [Position.offset_after, utf8Length_append, List.append_assoc] at slice ⊢
  refine ⟨by omega, ?_⟩
  simpa only [Position.start, Nat.zero_add, Nat.add_assoc] using slice

end ProseLang
