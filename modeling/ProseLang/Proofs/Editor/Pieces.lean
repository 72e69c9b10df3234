import ProseLang.Proofs.Editor.Stretches
import ProseLang.Proofs.Token.Holes

/-!
# Stretches of literals

What is highlighted of a span, of a text line by line, and of a string name by name stands for
stretches of the text where the span, the text or the string stands, one after the other
(`Highlight.strip_ofText`, `Highlight.strip_ofString`).
-/

namespace ProseLang

/-! ## Names in strings -/

/-- The names in a literal are on one line. -/
theorem StringLiteral.lineFeed_not_mem_holes {start : Position} {triple : Bool} {body : List Char}
    {hole : String × Span} (h : hole ∈ (decode start triple body).holes) :
    '\n' ∉ hole.1.toList := by
  obtain ⟨segment, member, found⟩ := List.mem_filterMap.1 h
  cases segment with
  | text t => cases found
  | hole name span =>
    cases found
    have piece := Piece.mem_of_mem_locate (Segment.hole_mem_ofPieces member)
    exact not_mem_of_isHoleName (Piece.isHoleName_of_mem_read piece) (by decide)

namespace Highlight

variable {text before inner : List Char} {kind : HighlightKind} {modifiers : List HighlightModifier}
  {h : Highlight}

/-- Highlights of no length are left out. -/
theorem mem_nonempty {g : Highlight} : h ∈ nonempty g ↔ h = g ∧ 0 < g.length := by
  rw [nonempty]
  split
  · next none => simp [none]
  · next room => simp [Nat.pos_of_ne_zero room]

/-- A highlight of a text on one line covers the start of the text that it is as long as. -/
theorem covers_nonempty {length : Nat} (cut : before ++ inner <+: text) (plain : '\n' ∉ inner)
    (fits : length ≤ utf16Length inner)
    (member : h ∈ nonempty
      ⟨before.count '\n', utf16Length (lastLine before), length, kind, modifiers⟩) :
    h.Covers text before inner := by
  obtain ⟨rfl, room⟩ := mem_nonempty.1 member
  exact ⟨cut, rfl, rfl, plain, room, fits⟩

/-! ## Spans -/

/-- Whether a highlight stands for the whole of what is written at a span. -/
def Fills (text : List Char) (s : Span) (h : Highlight) : Prop :=
  ∃ before inner, h.Covers text before inner ∧ utf8Length before = s.start.offset
    ∧ utf8Length (before ++ inner) = s.stop.offset

/-- What is highlighted of a span is the text that it spans. -/
theorem fills_ofSpan {s : Span} (valid : s.Valid text) (member : h ∈ ofSpan kind s modifiers) :
    h.Fills text s := by
  rcases s with ⟨start, stop⟩
  obtain ⟨⟨before, after, left, rfl⟩, ⟨upTo, after', right, rfl⟩, forward⟩ := valid
  simp only [Position.after_start] at forward member ⊢
  obtain ⟨inner, rfl⟩ := prefix_of_utf8Length_le (left ▸ List.prefix_append before after)
    (right ▸ List.prefix_append upTo after') forward
  rw [ofSpan] at member
  split at member
  · cases member
  · next oneLine =>
    have plain : '\n' ∉ inner := by
      simp [Span.isMultiline] at oneLine
      exact List.count_eq_zero.1 oneLine.2
    have fits : utf16Length (lastLine (before ++ inner)) - utf16Length (lastLine before)
        ≤ utf16Length inner := by
      rw [lastLine_append before plain, utf16Length_append]
      omega
    rw [Nat.add_sub_cancel_left] at member
    have covers := covers_nonempty (right ▸ List.prefix_append _ _) plain fits member
    exact ⟨before, inner, covers, rfl, rfl⟩

/-! ## Texts -/

/-- What is highlighted of a stretch of one line stands within it. -/
theorem strip_nonempty {length : Nat} (cut : before ++ inner <+: text) (plain : '\n' ∉ inner)
    (fits : length ≤ utf16Length inner) :
    Strip text (utf8Length before) (utf8Length (before ++ inner))
      (nonempty ⟨before.count '\n', utf16Length (lastLine before), length, kind, modifiers⟩) where
  covers _ member :=
    ⟨before, inner, covers_nonempty cut plain fits member, Nat.le_refl _, Nat.le_refl _⟩
  ordered := by
    rw [nonempty]
    split
    · exact .nil
    · exact List.pairwise_singleton _ _

/-- Lines are highlighted one after the other. -/
theorem strip_ofLines (kind : HighlightKind) {lines : List (List Char)}
    (plain : ∀ line ∈ lines, '\n' ∉ line)
    (cut : before ++ List.intercalate ['\n'] lines <+: text) :
    Strip text (utf8Length before) (utf8Length (before ++ List.intercalate ['\n'] lines))
      (ofLines kind (before.count '\n') (utf16Length (lastLine before)) lines) := by
  induction lines generalizing before with
  | nil => exact .nil
  | cons line lines ih =>
    obtain ⟨first, others⟩ := List.forall_mem_cons.1 plain
    have fits : utf16Length (if line.getLast? = some '\r' then line.dropLast else line)
        ≤ utf16Length line := by
      split
      · obtain ⟨ends, whole⟩ := List.dropLast_prefix line
        conv => rhs; rw [← whole, utf16Length_append]
        exact Nat.le_add_right _ _
      · exact Nat.le_refl _
    rw [ofLines]
    cases lines with
    | nil =>
      rw [List.intercalate_singleton] at cut ⊢
      rw [ofLines, List.append_nil]
      exact strip_nonempty cut first fits
    | cons second lines =>
      rw [List.intercalate_cons_cons, ← List.append_assoc, ← List.append_assoc] at cut ⊢
      have here : before ++ line <+: text :=
        ((List.prefix_append _ _).trans (List.prefix_append _ _)).trans cut
      have later := ih others cut
      have next : (before ++ line ++ ['\n']).count '\n' = before.count '\n' + 1 := by
        simp [List.count_eq_zero_of_not_mem first]
      rw [next, lastLine_lineFeed] at later
      refine (strip_nonempty here first fits).append (later.mono ?_ (Nat.le_refl _)) ?_ ?_
      all_goals
        simp only [utf8Length_append]
        omega

/-- A text is highlighted line by line. -/
theorem strip_ofText (kind : HighlightKind) (cut : before ++ inner <+: text) :
    Strip text (utf8Length before) (utf8Length (before ++ inner))
      (ofText kind (Position.start.after before) inner) := by
  have whole := intercalate_splitAtChar '\n' inner
  rw [Position.after_start, ofText, if_neg (by simp), Nat.add_sub_cancel_left]
  rw [← whole] at cut
  have lines := strip_ofLines kind (fun _ ↦ not_mem_of_mem_splitAtChar) cut
  rwa [whole] at lines

/-- A text on one line is highlighted where it starts. -/
theorem place_ofText {p : Position} (plain : '\n' ∉ inner) (member : h ∈ ofText kind p inner) :
    h.line = p.line - 1 ∧ h.start = p.column := by
  have one : splitAtChar '\n' inner = [inner] := by
    have nothing : splitAtChar '\n' [] = [[]] := rfl
    simpa using splitAtChar_append plain nothing
  rw [ofText] at member
  by_cases nowhere : p.line = 0
  · rw [if_pos nowhere] at member
    cases member
  · rw [if_neg nowhere, one, ofLines, ofLines, List.append_nil] at member
    obtain ⟨rfl, -⟩ := mem_nonempty.1 member
    exact ⟨rfl, rfl⟩

/-! ## Strings -/

/-- Whether a name stands in braces in the text of a string that starts behind `base`; `front` is
the text up to the name. -/
structure Embeds (base raw : List Char) (name : Ident) (front : List Char) : Prop where
  written : front ++ name.val.toList <+: raw
  plain : '\n' ∉ name.val.toList
  inside : utf8Length base ≤ name.span.start.offset
  opening : Position.start.after (base ++ front)
    = ⟨name.span.start.offset + 1, name.span.start.line, name.span.start.column + 1⟩
  closing : Position.start.after (base ++ (front ++ name.val.toList))
    = ⟨name.span.stop.offset - 1, name.span.stop.line, name.span.stop.column - 1⟩

/-- A brace takes up one byte and one UTF-16 unit. -/
theorem after_brace {brace : Char} (h : brace = '\x7b' ∨ brace = '\x7d') (p : Position) :
    p.after [brace] = ⟨p.offset + 1, p.line, p.column + 1⟩ := by
  rcases h with rfl | rfl <;> rfl

/-- A string is highlighted up to its first name, then the name, then the rest. -/
theorem ofStringFrom_cons {s : StringLit} {done : Nat} {p : Position} {name : Ident}
    {names : List Ident} {front : List Char}
    (slice : sliceBytes? done (name.span.start.offset - s.span.start.offset + 1) s.raw.toList
      = some front) :
    ofStringFrom kind s done p (name :: names)
      = ofText kind p front
        ++ nonempty ⟨name.span.start.line - 1, name.span.start.column + 1,
            utf16Length name.val.toList, .variable, []⟩
        ++ ofStringFrom kind s (name.span.stop.offset - s.span.start.offset - 1)
            ⟨name.span.stop.offset - 1, name.span.stop.line, name.span.stop.column - 1⟩ names := by
  rw [ofStringFrom]
  simp only [slice]

namespace Embeds

variable {base raw front left right : List Char} {name : Ident}

/-- A name in a string is highlighted where it stands. -/
theorem strip (h : Embeds base raw name front) (cut : base ++ raw <+: text) :
    Strip text (utf8Length (base ++ front)) (utf8Length (base ++ (front ++ name.val.toList)))
      (nonempty ⟨name.span.start.line - 1, name.span.start.column + 1,
        utf16Length name.val.toList, .variable, []⟩) := by
  obtain ⟨rest, written⟩ := h.written
  have upTo : base ++ front ++ name.val.toList <+: text := by
    refine List.IsPrefix.trans ⟨rest, ?_⟩ cut
    rw [← written]
    simp only [List.append_assoc]
  have line := congrArg Position.line h.opening
  have column := congrArg Position.column h.opening
  simp only [Position.after_start] at line column
  rw [← column, ← line, Nat.add_sub_cancel_left, ← List.append_assoc]
  exact strip_nonempty upTo h.plain (Nat.le_refl _)

private theorem opens (h : Embeds base raw name front) :
    utf8Length base + utf8Length front = name.span.start.offset + 1 := by
  have opening := congrArg Position.offset h.opening
  rwa [Position.after_start, utf8Length_append] at opening

private theorem closes (h : Embeds base raw name front) :
    utf8Length base + utf8Length (front ++ name.val.toList) = name.span.stop.offset - 1 := by
  have closing := congrArg Position.offset h.closing
  rwa [Position.after_start, utf8Length_append] at closing

/-- From a place in front of a name, a string goes on up to the name with its brace. -/
theorem exists_slice (h : Embeds base raw name front) (whole : left ++ right = raw)
    (ahead : utf8Length (base ++ left) ≤ name.span.start.offset) :
    ∃ between, front = left ++ between
      ∧ sliceBytes? (utf8Length left) (name.span.start.offset - utf8Length base + 1) raw
        = some between := by
  obtain ⟨rest, written⟩ := h.written
  have opens := h.opens
  rw [utf8Length_append] at ahead
  obtain ⟨between, rfl⟩ : left <+: front := by
    refine prefix_of_utf8Length_le ⟨right, whole⟩ ((List.prefix_append _ _).trans h.written) ?_
    omega
  have slice := sliceBytes?_append left between (name.val.toList ++ rest)
  have edge : utf8Length (left ++ between) = name.span.start.offset - utf8Length base + 1 := by
    omega
  rw [← List.append_assoc, written, edge] at slice
  exact ⟨between, rfl, slice⟩

end Embeds

/-- A string is highlighted name by name. -/
theorem strip_ofStringFrom (kind : HighlightKind) {s : StringLit} {base left right : List Char}
    {names : List Ident} (whole : left ++ right = s.raw.toList)
    (cut : base ++ s.raw.toList <+: text) (place : s.span.start.offset = utf8Length base)
    (holes : ∀ name ∈ names, ∃ front, Embeds base s.raw.toList name front)
    (ordered : names.Pairwise fun a b ↦ a.span.stop.offset ≤ b.span.start.offset)
    (ahead : ∀ name ∈ names, utf8Length (base ++ left) ≤ name.span.start.offset) :
    Strip text (utf8Length (base ++ left)) (utf8Length (base ++ s.raw.toList))
      (ofStringFrom kind s (utf8Length left) (Position.start.after (base ++ left)) names) := by
  induction names generalizing left right with
  | nil =>
    obtain ⟨rest, drop, same⟩ := takeBytes?_append_dropBytes? (takeBytes?_utf8Length left right)
    obtain rfl := List.append_cancel_left same
    rw [ofStringFrom, ← whole, drop]
    rw [← whole] at cut
    rw [← List.append_assoc] at cut ⊢
    exact strip_ofText kind cut
  | cons name names ih =>
    obtain ⟨⟨front, hole⟩, holes⟩ := List.forall_mem_cons.1 holes
    obtain ⟨first, ordered⟩ := List.pairwise_cons.1 ordered
    obtain ⟨rest, written⟩ := hole.written
    obtain ⟨between, rfl, slice⟩ := hole.exists_slice whole (ahead name List.mem_cons_self)
    have closes := hole.closes
    have done : name.span.stop.offset - s.span.start.offset - 1
        = utf8Length (left ++ between ++ name.val.toList) := by
      omega
    rw [← place] at slice
    rw [ofStringFrom_cons slice, done, ← hole.closing]
    have upTo : base ++ left ++ between <+: text := by
      refine List.IsPrefix.trans ⟨name.val.toList ++ rest, ?_⟩ cut
      rw [← written]
      simp only [List.append_assoc]
    have before := strip_ofText kind upTo
    have later := ih written holes ordered fun x hx ↦ by
      have behind := first x hx
      rw [utf8Length_append]
      omega
    rw [List.append_assoc base] at before
    refine (before.append (hole.strip cut) ?_ ?_).append later ?_ ?_
    all_goals
      simp only [← written, utf8Length_append]
      omega

/-- A string whose names are embedded in it is highlighted within itself. -/
theorem strip_ofString (kind : HighlightKind) {s : StringLit} {base raw : List Char}
    (written : s.raw.toList = raw) (cut : base ++ raw <+: text)
    (place : s.span.start = Position.start.after base)
    (holes : ∀ name ∈ s.interpolations, ∃ front, Embeds base raw name front)
    (ordered : s.interpolations.Pairwise fun a b ↦ a.span.stop.offset ≤ b.span.start.offset) :
    Strip text (utf8Length base) (utf8Length (base ++ raw)) (ofString kind s) := by
  subst written
  have offset : s.span.start.offset = utf8Length base := by rw [place, Position.after_start]
  have ahead : ∀ name ∈ s.interpolations, utf8Length (base ++ []) ≤ name.span.start.offset := by
    intro name member
    obtain ⟨front, hole⟩ := holes name member
    rw [List.append_nil]
    exact hole.inside
  have strip := strip_ofStringFrom kind (List.nil_append _) cut offset holes ordered ahead
  rw [List.append_nil, ← place] at strip
  rw [ofString]
  split
  · exact .nil
  · exact strip

/-- A name in a literal stands in braces in its text. -/
theorem embeds_of_mem_holes {base body : List Char} {triple : Bool} {hole : String × Span}
    (h : hole ∈ (StringLiteral.decode (Position.start.after base) triple body).holes) :
    ∃ front, Embeds base (StringLiteral.written triple body) ⟨hole.1, hole.2⟩ front := by
  obtain ⟨before, after, written, place⟩ := StringLiteral.exists_of_mem_holes h
  have opening := after_brace (.inl rfl) (Position.start.after (base ++ before))
  have closing := after_brace (.inr rfl)
    (Position.start.after (base ++ (before ++ ['\x7b'] ++ hole.1.toList)))
  rw [← Position.after_append] at opening closing
  have starts : hole.2.start = Position.start.after (base ++ before) := by
    rw [place, ← Position.after_append]
  have stops : hole.2.stop
      = Position.start.after (base ++ (before ++ ['\x7b'] ++ hole.1.toList) ++ ['\x7d']) := by
    rw [place, holeText]
    simp only [← Position.after_append, List.append_assoc, List.cons_append, List.nil_append]
  have plain := StringLiteral.lineFeed_not_mem_holes h
  refine ⟨before ++ ['\x7b'], ⟨'\x7d' :: after, ?_⟩, plain, ?_, ?_, ?_⟩
  · rw [written, holeText]
    simp
  · rw [starts, Position.after_start, utf8Length_append]
    exact Nat.le_add_right _ _
  · rw [starts, ← List.append_assoc, opening]
  · rw [stops, closing]
    rfl

/-- A string token is highlighted within itself. -/
theorem strip_literal {source : String} {literal : StringLiteral} {span : Span}
    (h : ⟨.string literal, span⟩ ∈ visible (tokenize source).tokens) :
    Strip source.toList span.start.offset span.stop.offset
      (ofString kind (.ofLiteral literal span)) := by
  obtain ⟨before, after, triple, body, whole, rfl, rfl⟩ := string_mem_tokenize h
  have cut : before ++ StringLiteral.written triple body <+: source.toList :=
    whole ▸ List.prefix_append _ _
  have strip := strip_ofString kind
    (s := .ofLiteral (.decode (Position.start.after before) triple body)
      ⟨Position.start.after before,
        Position.start.after (before ++ StringLiteral.written triple body)⟩)
    String.toList_ofList cut rfl
    (List.forall_mem_map.2 fun hole member ↦ embeds_of_mem_holes member)
    (List.pairwise_map.2 (StringLiteral.ordered_holes (Position.start.after before) triple body))
  rw [Position.offset_after, Position.offset_after, Position.start, Nat.zero_add, Nat.zero_add]
  exact strip

end Highlight

end ProseLang
