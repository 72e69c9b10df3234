import Mathlib.Data.List.Chain
import Mathlib.Data.List.Pairwise
import ProseLang.Proofs.Token.Quotes

/-!
# How strings are scanned and read

The end of a string is found before its body is read, by a scan that knows of backslashes and
nothing else. The two agree: read piece by piece, a body ends at the first quotes that no backslash
escapes (`IsClosedBy`), and no backslash is left over at its end. What is read is complete and in
order: the segments make up the value, no two texts are next to each other, and the escapes and
interpolated names stand apart from each other between the quotes, each as it is written there
(`strings_tokenize`).
-/

namespace ProseLang

/-! ## Where a string ends -/

/-- Whether a body ends at the first of its closing quotes, with `after` behind them: a backslash
takes the character after it along, and at no other character do such quotes come next. -/
inductive IsClosedBy (quotes after : List Char) : List Char → Prop
  | nil : IsClosedBy quotes after []
  | escape (c : Char) {body : List Char} (rest : IsClosedBy quotes after body) :
      IsClosedBy quotes after ('\\' :: c :: body)
  | plain {c : Char} {body : List Char} (unescaped : c ≠ '\\')
      (goes : ¬ quotes <+: c :: body ++ quotes ++ after) (rest : IsClosedBy quotes after body) :
      IsClosedBy quotes after (c :: body)

namespace IsClosedBy

variable {quotes after body : List Char}

/-- What follows a character that is no backslash. -/
theorem tail {c : Char} (h : IsClosedBy quotes after (c :: body)) (hc : c ≠ '\\') :
    IsClosedBy quotes after body := by
  cases h with
  | escape => exact absurd rfl hc
  | plain _ _ rest => exact rest

/-- What follows some characters without a backslash. -/
theorem drop {name : List Char} (h : IsClosedBy quotes after (name ++ body)) (hn : '\\' ∉ name) :
    IsClosedBy quotes after body := by
  induction name with
  | nil => exact h
  | cons c name ih =>
    rw [List.mem_cons, not_or] at hn
    exact ih (h.tail (Ne.symm hn.1)) hn.2

/-- The quotes do not come next where a body goes on. -/
theorem goes_on {c : Char} (h : IsClosedBy quotes after (c :: body))
    (hq : quotes.head? = some '"') : ¬ quotes <+: c :: body ++ quotes ++ after := by
  cases h with
  | escape d =>
    rintro ⟨more, starts⟩
    cases quotes with
    | nil => cases hq
    | cons q quotes =>
      obtain ⟨rfl, -⟩ := List.cons.inj starts
      cases hq
  | plain _ goes _ => exact goes

end IsClosedBy

namespace Tail

variable {text : List Char}

/-- A string in single quotes ends at the first quote that no backslash escapes; `escaped` tells
that a backslash comes just before. -/
theorem ofQuoted_isClosedBy {escaped : Bool} (h : (ofQuoted escaped text).closed = true) :
    if escaped then ∃ c body, (ofQuoted escaped text).body = c :: body
        ∧ IsClosedBy ['"'] (ofQuoted escaped text).rest body
    else IsClosedBy ['"'] (ofQuoted escaped text).rest (ofQuoted escaped text).body := by
  fun_induction ofQuoted escaped text with
  | case1 => cases h
  | case2 => cases h
  | case3 escaped c text hc hq =>
    obtain ⟨rfl, rfl⟩ := hq
    exact .nil
  | case4 escaped c text hc hq ih =>
    have later := ih h
    change if escaped then ∃ d body, c :: (ofQuoted _ text).body = d :: body
        ∧ IsClosedBy ['"'] (ofQuoted _ text).rest body
      else IsClosedBy ['"'] (ofQuoted _ text).rest (c :: (ofQuoted _ text).body)
    cases escaped with
    | true =>
      rw [Bool.not_true, Bool.and_false] at later ⊢
      exact ⟨c, _, rfl, later⟩
    | false =>
      by_cases slash : c = '\\'
      · subst slash
        obtain ⟨d, body, split, closed⟩ := later
        change IsClosedBy _ (ofQuoted true text).rest ('\\' :: (ofQuoted true text).body)
        rw [show (ofQuoted true text).body = _ from split]
        exact closed.escape d
      · rw [decide_eq_false slash, Bool.false_and] at later ⊢
        refine .plain slash ?_ later
        rintro ⟨more, starts⟩
        exact hq ⟨(List.cons.inj starts).1.symm, rfl⟩

/-- A string in triple quotes ends at the first three quotes of which no backslash escapes the
first. -/
theorem ofTripleQuoted_isClosedBy (h : (ofTripleQuoted text).closed = true) :
    IsClosedBy ['"', '"', '"'] (ofTripleQuoted text).rest (ofTripleQuoted text).body := by
  fun_induction ofTripleQuoted text with
  | case1 => cases h
  | case2 c text ih => exact (ih h).escape c
  | case3 text => exact .nil
  | case4 c text hescape hclose ih =>
    have whole := (ofTripleQuoted text).body_append_rest
    rw [if_pos (show (ofTripleQuoted text).closed = true from h)] at whole
    refine .plain ?_ ?_ (ih h)
    · rintro rfl
      cases text with
      | nil => cases h
      | cons d text => exact hescape d text rfl rfl
    · change ¬ _ <+: c :: ((ofTripleQuoted text).body ++ ['"', '"',
        '"'] ++ (ofTripleQuoted text).rest)
      rw [whole]
      rintro ⟨more, starts⟩
      obtain ⟨rfl, rest⟩ := List.cons.inj starts
      exact hclose more rfl rest.symm

end Tail

/-- A string ends where its quotes first come. -/
theorem Cut.isClosedBy_first {c : Char} {text : List Char} {triple : Bool} {body : List Char}
    (h : (first c text).lexeme = .quoted triple body) :
    IsClosedBy (StringLiteral.quotes triple) (first c text).rest body := by
  generalize is : first c text = cut at h ⊢
  unfold first at is
  split at is
  · cases is
    cases h
  split at is
  · cases is
    cases h
  split at is
  · cases is
    cases h
  split at is
  all_goals subst is
  · cases h
  · cases h
  · cases h
  · obtain ⟨closed, rfl, rfl⟩ := closed_of_quoted h
    exact Tail.ofTripleQuoted_isClosedBy closed
  · obtain ⟨closed, rfl, rfl⟩ := closed_of_quoted h
    exact Tail.ofQuoted_isClosedBy closed
  · exact absurd h (by simp only [ofTail]; split <;> simp)
  · exact absurd h (by simp only [ofTail]; split <;> simp)
  · cases h
  · split at h <;> cases h

/-! ## What a string is read as -/

namespace Piece

/-- What is left of a body after its first piece is read by itself. -/
theorem exists_of_read_cons {body : List Char} {x : Piece} {xs : List Piece}
    (reads : read body = x :: xs) :
    ∃ rest, body = x.source ++ rest ∧ read rest = xs ∧ (x = .plain '\\' → rest = []) := by
  have whole := source_read body
  revert reads whole
  fun_cases read body with
  | case1 => exact nofun
  | case2 c rest =>
    rintro ⟨⟩ whole
    exact ⟨rest, rfl, rfl, nofun⟩
  | case3 rest name rest' found =>
    rintro ⟨⟩ whole
    rw [List.flatMap_cons, source_read] at whole
    exact ⟨rest', whole.symm, rfl, nofun⟩
  | case4 rest =>
    rintro ⟨⟩ whole
    exact ⟨rest, rfl, rfl, nofun⟩
  | case5 c rest escape =>
    rintro ⟨⟩ whole
    refine ⟨rest, rfl, rfl, ?_⟩
    rintro ⟨⟩
    cases rest with
    | nil => rfl
    | cons d rest => exact absurd rfl (escape d rest rfl)

/-- A name in braces has no quote and no backslash. -/
theorem not_mem_source_of_hole {body name : List Char} (h : hole name ∈ read body) :
    '"' ∉ (hole name).source ∧ '\\' ∉ (hole name).source := by
  have isName := isHoleName_of_mem_read h
  have quote : '"' ∉ name := not_mem_of_isHoleName isName (by decide)
  have slash : '\\' ∉ name := not_mem_of_isHoleName isName (by decide)
  simp [source, quote, slash]

end Piece

namespace IsClosedBy

variable {quotes after body : List Char}

/-- The first piece of a body is no backslash alone, and the rest of the body ends where the body
does. -/
theorem read_cons (h : IsClosedBy quotes after body) {x : Piece} {xs : List Piece}
    (reads : Piece.read body = x :: xs) :
    x ≠ .plain '\\' ∧ ∃ rest, body = x.source ++ rest ∧ Piece.read rest = xs
      ∧ IsClosedBy quotes after rest := by
  obtain ⟨rest, rfl, later, alone⟩ := Piece.exists_of_read_cons reads
  cases x with
  | plain c =>
    by_cases slash : c = '\\'
    · rw [alone (congrArg _ slash), slash] at h
      cases h with
      | plain unescaped => exact absurd rfl unescaped
    · exact ⟨fun same ↦ slash (Piece.plain.inj same), rest, rfl, later, h.tail slash⟩
  | escape c =>
    refine ⟨nofun, rest, rfl, later, ?_⟩
    cases h with
    | escape _ closed => exact closed
    | plain unescaped => exact absurd rfl unescaped
  | hole name =>
    have slash := (Piece.not_mem_source_of_hole (reads ▸ List.mem_cons_self)).2
    exact ⟨nofun, rest, rfl, later, h.drop slash⟩

/-- No backslash of a body is left over. -/
theorem slash_not_mem_read (h : IsClosedBy quotes after body) :
    .plain '\\' ∉ Piece.read body := by
  induction reads : Piece.read body generalizing body with
  | nil => exact List.not_mem_nil
  | cons x xs ih =>
    obtain ⟨taken, rest, -, later, closed⟩ := h.read_cons reads
    rw [List.mem_cons, not_or]
    exact ⟨taken.symm, ih closed later⟩

/-- Where the quotes come next in a body, an escape takes the first of them. -/
theorem escape_of_starts (h : IsClosedBy quotes after body) (hq : quotes.head? = some '"')
    {left right : List Char} (cut : body = left ++ right) (goes : right ≠ [])
    (starts : quotes <+: right ++ quotes ++ after) :
    ∃ before more, Piece.read body = before ++ .escape '"' :: more
      ∧ left = before.flatMap Piece.source ++ ['\\'] := by
  have quote : ∃ rest, right = '"' :: rest := by
    cases right with
    | nil => exact absurd rfl goes
    | cons c right =>
      cases quotes with
      | nil => cases hq
      | cons q quotes =>
        cases hq
        obtain ⟨rest, same⟩ := starts
        exact ⟨right, congrArg (· :: right) (List.cons.inj same).1.symm⟩
  induction reads : Piece.read body generalizing body left with
  | nil =>
    have whole := Piece.source_read body
    rw [reads, cut] at whole
    exact absurd (List.append_eq_nil_iff.1 whole.symm).2 goes
  | cons x xs ih =>
    obtain ⟨-, rest, split, later, closed⟩ := h.read_cons reads
    have beyond (left' : List Char) (deeper : left = x.source ++ left')
        (inner : rest = left' ++ right) :
        ∃ before more, x :: xs = before ++ .escape '"' :: more
          ∧ left = before.flatMap Piece.source ++ ['\\'] := by
      obtain ⟨before, more, found, place⟩ := ih closed inner later
      refine ⟨x :: before, more, by rw [found, List.cons_append], ?_⟩
      rw [deeper, place, List.flatMap_cons, List.append_assoc]
    rcases List.append_eq_append_iff.1 (split.symm.trans cut) with
      ⟨left', deeper, inner⟩ | ⟨_ | ⟨c, inside⟩, within, ends⟩
    · exact beyond left' deeper inner
    · exact beyond [] (by simpa using within.symm) (by simpa using ends.symm)
    · obtain ⟨right', isQuote⟩ := quote
      obtain ⟨rfl, -⟩ := List.cons.inj (isQuote.symm.trans ends)
      cases left with
      | nil =>
        rw [List.nil_append] at cut
        rw [cut, isQuote] at h
        exact absurd (isQuote ▸ starts) (h.goes_on hq)
      | cons d left =>
        cases x with
        | plain e => simp [Piece.source] at within
        | escape e =>
          cases left with
          | nil =>
            obtain ⟨rfl, same⟩ := List.cons.inj within
            obtain ⟨rfl, -⟩ := List.cons.inj same
            exact ⟨[], xs, rfl, rfl⟩
          | cons f left => simp [Piece.source] at within
        | hole name =>
          have noQuote := (Piece.not_mem_source_of_hole (reads ▸ List.mem_cons_self)).1
          exact absurd (within ▸ by simp) noQuote

end IsClosedBy

/-! ## Segments -/

namespace Piece

private theorem value_ne_nil (x : Piece) : x.value ≠ [] := by
  cases x with
  | plain c => simp [value]
  | escape c => cases known : unescape? c <;> simp [value, known]
  | hole name => simp [value]

private theorem map_fst_locate (p : Position) (xs : List Piece) :
    (locate p xs).map Prod.fst = xs := by
  induction xs generalizing p with
  | nil => rfl
  | cons x xs ih => rw [locate, List.map_cons, ih]

end Piece

namespace Segment

/-- A segment as it stands in the value of its literal. -/
def rendered : Segment → List Char
  | text t => t.toList
  | hole name _ => holeText name

/-- Whether a segment is literal text. -/
def isText : Segment → Bool
  | text _ => true
  | hole _ _ => false

/-- Whether no text among segments is empty and no two of them are next to each other. -/
structure Merged (segments : List Segment) : Prop where
  filled : text "" ∉ segments
  apart : segments.IsChain fun a b ↦ ¬(a.isText = true ∧ b.isText = true)

private theorem rendered_consText (t : List Char) (segments : List Segment) :
    (consText t segments).flatMap rendered = t ++ segments.flatMap rendered := by
  unfold consText
  split <;> simp [rendered]

private theorem merged_consText {t : List Char} {segments : List Segment} (h : Merged segments)
    (ht : t ≠ []) : Merged (consText t segments) := by
  have filled (more : String) : text "" ≠ text (String.ofList t ++ more) := fun same ↦ by
    have empty := congrArg String.toList (text.inj same)
    simp [ht] at empty
  unfold consText
  split
  · next more segments =>
    obtain ⟨others, apart⟩ := h
    refine ⟨?_, ?_⟩
    · rw [List.mem_cons, not_or] at others ⊢
      exact ⟨filled more, others.2⟩
    · rw [List.isChain_cons] at apart ⊢
      exact apart
  · next noText =>
    refine ⟨?_, List.isChain_cons.2 ⟨?_, h.apart⟩⟩
    · rw [List.mem_cons, not_or]
      exact ⟨by simpa using filled "", h.filled⟩
    · rintro b first ⟨-, isText⟩
      cases b with
      | hole => cases isText
      | text more =>
        obtain ⟨rest, rfl⟩ := List.head?_eq_some_iff.1 first
        exact noText more rest rfl

private theorem rendered_ofPieces (pieces : List (Piece × Span)) :
    (ofPieces pieces).flatMap rendered = (pieces.map Prod.fst).flatMap Piece.value := by
  fun_induction ofPieces pieces with
  | case1 => rfl
  | case2 name span pieces ih => simp [rendered, holeText, Piece.value, ih]
  | case3 piece span pieces _ ih => simp [rendered_consText, ih]

private theorem merged_ofPieces (pieces : List (Piece × Span)) : Merged (ofPieces pieces) := by
  fun_induction ofPieces pieces with
  | case1 => exact ⟨List.not_mem_nil, .nil⟩
  | case2 name span pieces ih =>
    refine ⟨?_, List.isChain_cons.2 ⟨fun _ _ isText ↦ ?_, ih.apart⟩⟩
    · rw [List.mem_cons, not_or]
      exact ⟨by simp, ih.filled⟩
    · cases isText.1
  | case3 piece span pieces _ ih => exact merged_consText ih piece.value_ne_nil

end Segment

/-! ## Escapes and interpolated names -/

/-- Whether two spans do not overlap. -/
def Span.Apart (a b : Span) : Prop :=
  a.stop.offset ≤ b.start.offset ∨ b.stop.offset ≤ a.start.offset

namespace StringLiteral

/-- The escapes and the interpolated names of a literal, each as it is written and where. -/
def marks (literal : StringLiteral) : List (List Char × Span) :=
  literal.escapes.map (fun e ↦ (e.sequence.toList, e.span))
    ++ literal.holes.map fun h ↦ (holeText h.1, h.2)

variable {start : Position} {triple : Bool} {body : List Char}

/-- An escape is a piece. -/
theorem exists_piece_of_mem_escapes {e : Escape} (h : e ∈ (decode start triple body).escapes) :
    ∃ c, e.sequence = String.ofList (Piece.escape c).source ∧ e.decoded = unescape? c
      ∧ (.escape c, e.span) ∈ Piece.locate (start.after (quotes triple)) (Piece.read body) := by
  obtain ⟨⟨piece, span⟩, member, found⟩ := List.mem_filterMap.1 h
  cases piece with
  | escape c =>
    cases found
    exact ⟨c, rfl, rfl, member⟩
  | plain c => cases found
  | hole name => cases found

/-- An interpolated name is a piece. -/
theorem hole_piece_of_mem_holes {hole : String × Span}
    (h : hole ∈ (decode start triple body).holes) : (.hole hole.1.toList, hole.2)
      ∈ Piece.locate (start.after (quotes triple)) (Piece.read body) := by
  obtain ⟨segment, member, found⟩ := List.mem_filterMap.1 h
  cases segment with
  | text t => cases found
  | hole name span =>
    cases found
    exact Segment.hole_mem_ofPieces member

/-- Every escape and every interpolated name is written between the quotes, where its span says. -/
theorem exists_of_mem_marks {m : List Char × Span} (h : m ∈ (decode start triple body).marks) :
    m.1 ≠ [] ∧ ∃ left right, body = left ++ m.1 ++ right
      ∧ m.2 = ⟨start.after (quotes triple ++ left),
        start.after (quotes triple ++ left ++ m.1)⟩ := by
  have piece : ∃ x, (x, m.2) ∈ Piece.locate (start.after (quotes triple)) (Piece.read body)
      ∧ m.1 = x.source ∧ x.source ≠ [] := by
    rcases List.mem_append.1 h with h | h
    · obtain ⟨e, he, rfl⟩ := List.mem_map.1 h
      obtain ⟨c, sequence, -, member⟩ := exists_piece_of_mem_escapes he
      refine ⟨_, member, ?_, List.cons_ne_nil _ _⟩
      rw [sequence, String.toList_ofList]
    · obtain ⟨hole, hh, rfl⟩ := List.mem_map.1 h
      exact ⟨_, hole_piece_of_mem_holes hh, rfl, List.cons_ne_nil _ _⟩
  obtain ⟨x, member, same, filled⟩ := piece
  obtain ⟨left, right, cut, place⟩ := Piece.span_of_mem_locate member
  rw [Piece.source_read] at cut
  refine ⟨same ▸ filled, left, right, same ▸ cut, ?_⟩
  rw [place, same, List.append_assoc, Position.after_append start, Position.after_append start]

/-- The escapes of a literal stand one after the other. -/
theorem ordered_escapes (start : Position) (triple : Bool) (body : List Char) :
    (decode start triple body).escapes.Pairwise
      fun a b ↦ a.span.stop.offset ≤ b.span.start.offset := by
  refine List.pairwise_filterMap.2 ((Piece.ordered_locate _ _).imp ?_)
  rintro ⟨(_ | _ | _), s⟩ ⟨(_ | _ | _), t⟩ before _ ha _ hb <;> cases ha <;> cases hb
  exact before

/-- An escape and an interpolated name do not overlap. -/
theorem escape_apart_hole {e : Escape} {hole : String × Span}
    (he : e ∈ (decode start triple body).escapes) (hh : hole ∈ (decode start triple body).holes) :
    e.span.Apart hole.2 := by
  obtain ⟨c, -, -, member⟩ := exists_piece_of_mem_escapes he
  have symm : Std.Symm fun a b : Piece × Span ↦ a.2.Apart b.2 := ⟨fun _ _ ↦ Or.symm⟩
  have apart : (Piece.locate (start.after (quotes triple)) (Piece.read body)).Pairwise
      fun a b ↦ a.2.Apart b.2 := (Piece.ordered_locate _ _).imp .inl
  exact apart.forall member (hole_piece_of_mem_holes hh) nofun

/-- No escapes or interpolated names overlap. -/
theorem apart_marks (start : Position) (triple : Bool) (body : List Char) :
    (decode start triple body).marks.Pairwise fun a b ↦ a.2.Apart b.2 := by
  refine List.pairwise_append.2 ⟨?_, ?_, ?_⟩
  · exact List.pairwise_map.2 ((ordered_escapes start triple body).imp .inl)
  · exact List.pairwise_map.2 ((ordered_holes start triple body).imp .inl)
  · refine List.forall_mem_map.2 fun e he ↦ List.forall_mem_map.2 fun hole hh ↦ ?_
    exact escape_apart_hole he hh

end StringLiteral

/-! ## String tokens -/

/-- What holds of a literal that is read off the text from `before` to `after`. -/
structure StringLiteral.IsReading (literal : StringLiteral) (before body after : List Char) :
    Prop where
  /-- The literal is what the body reads as. -/
  decoded : literal = .decode (Position.start.after before) literal.triple body
  /-- Wherever its quotes come in the body, an escape takes the first of them. -/
  closes : ∀ left right, body = left ++ right → right ≠ [] →
    quotes literal.triple <+: right ++ quotes literal.triple ++ after →
    ∃ pieces more, Piece.read body = pieces ++ .escape '"' :: more
      ∧ left = pieces.flatMap Piece.source ++ ['\\']
  /-- Every backslash has a character after it. -/
  escapes : .plain '\\' ∉ Piece.read body
  /-- The segments make up the value. -/
  value : literal.value.toList = literal.segments.flatMap Segment.rendered
  merged : Segment.Merged literal.segments
  escapes_ordered : literal.escapes.Pairwise fun a b ↦ a.span.stop.offset ≤ b.span.start.offset
  holes_ordered : literal.holes.Pairwise fun a b ↦ a.2.stop.offset ≤ b.2.start.offset
  apart : literal.marks.Pairwise fun a b ↦ a.2.Apart b.2
  /-- Each of these stands between the quotes, takes up room and is written as it is recorded. -/
  marks : ∀ m ∈ literal.marks,
    (utf8Length (before ++ quotes literal.triple) ≤ m.2.start.offset
      ∧ m.2.start.offset < m.2.stop.offset
      ∧ m.2.stop.offset ≤ utf8Length (before ++ quotes literal.triple ++ body))
    ∧ sliceBytes? m.2.start.offset m.2.stop.offset
        (before ++ written literal.triple body ++ after) = some m.1

/-- A body that is closed where its quotes first come is read as it was found. -/
theorem StringLiteral.isReading_decode (before : List Char) {triple : Bool} {body after : List Char}
    (closed : IsClosedBy (quotes triple) after body) :
    (decode (Position.start.after before) triple body).IsReading before body after where
  decoded := rfl
  closes := fun _ _ cut goes starts ↦
    closed.escape_of_starts (by cases triple <;> rfl) cut goes starts
  escapes := closed.slash_not_mem_read
  value := by
    change (String.ofList ((Piece.read body).flatMap Piece.value)).toList = _
    rw [String.toList_ofList, ← Piece.map_fst_locate _ (Piece.read body)]
    exact (Segment.rendered_ofPieces _).symm
  merged := Segment.merged_ofPieces _
  escapes_ordered := ordered_escapes _ triple body
  holes_ordered := ordered_holes _ triple body
  apart := apart_marks _ triple body
  marks := by
    change ∀ m ∈ (decode _ triple body).marks,
      (utf8Length (before ++ quotes triple) ≤ _ ∧ _
        ∧ _ ≤ utf8Length (before ++ quotes triple ++ body))
        ∧ sliceBytes? _ _ (before ++ written triple body ++ after) = _
    intro m hm
    obtain ⟨filled, left, right, rfl, place⟩ := exists_of_mem_marks hm
    have room := utf8Length_pos filled
    have slice := sliceBytes?_append (before ++ quotes triple ++ left) m.1
      (right ++ quotes triple ++ after)
    rw [place, written]
    simp only [Position.offset_after, utf8Length_append, List.append_assoc, Position.start,
      Nat.zero_add] at slice ⊢
    exact ⟨by omega, slice⟩

/-- Every string token of a text is read as it was found: its quotes are the first after the body
that no backslash escapes, no backslash is left over, and the segments, escapes and interpolated
names are those of the body, complete, apart and in order. -/
theorem strings_tokenize {source : String} {literal : StringLiteral} {span : Span}
    (h : ⟨.string literal, span⟩ ∈ (tokenize source).tokens) :
    ∃ before body after,
      source.toList = before ++ StringLiteral.written literal.triple body ++ after
        ∧ span = ⟨Position.start.after before,
            Position.start.after (before ++ StringLiteral.written literal.triple body)⟩
        ∧ literal.IsReading before body after := by
  have shown : ⟨.string literal, span⟩ ∈ visible (tokenize source).tokens :=
    List.mem_filter.2 ⟨h, rfl⟩
  rw [tokenize, visible_tokenizeChars] at shown
  obtain ⟨l, hl, token⟩ := List.mem_filterMap.1 shown
  obtain ⟨before, c, rest, whole, rfl⟩ := exists_cut_of_mem_lexemes hl
  unfold LexemeAt.token? at token
  split at token <;> cases token
  next triple body quoted =>
  have isWritten := Cut.isWritten_first c rest
  have taken := (Cut.first c rest).taken_append_rest
  change (Cut.first c rest).lexeme = _ at quoted
  rw [quoted] at isWritten
  change StringLiteral.written triple body = _ at isWritten
  refine ⟨before, body, (Cut.first c rest).rest, ?_, ?_, ?_⟩
  · change _ = before ++ StringLiteral.written triple body ++ _
    rw [whole, isWritten, List.append_assoc, taken]
  · change _ = Span.mk _ (Position.start.after (before ++ StringLiteral.written triple body))
    rw [isWritten]
  · exact StringLiteral.isReading_decode before (Cut.isClosedBy_first quoted)

/-- A string with an escaped quote and an interpolated name. -/
theorem strings_tokenize_escaped :
    (⟨.string (.decode .start false ['\\', '"', '\x7b', 'x', '\x7d']),
        ⟨.start, Position.start.after ['"', '\\', '"', '\x7b', 'x', '\x7d', '"']⟩⟩ : Token)
      ∈ (tokenize "\"\\\"\x7bx\x7d\"").tokens
    ∧ ∃ before body after, "\"\\\"\x7bx\x7d\"".toList
        = before ++ StringLiteral.written false body ++ after
      ∧ (⟨.start, Position.start.after ['"', '\\', '"', '\x7b', 'x', '\x7d', '"']⟩ : Span)
        = ⟨Position.start.after before,
            Position.start.after (before ++ StringLiteral.written false body)⟩
      ∧ (StringLiteral.decode .start false ['\\', '"', '\x7b', 'x', '\x7d']).IsReading
          before body after :=
  have member : (⟨.string (.decode .start false ['\\', '"', '\x7b', 'x', '\x7d']),
      ⟨.start, Position.start.after ['"', '\\', '"', '\x7b', 'x', '\x7d', '"']⟩⟩ : Token)
      ∈ (tokenize "\"\\\"\x7bx\x7d\"").tokens := by decide +kernel
  ⟨member, strings_tokenize member⟩

/-! ## Literals made for a text -/

/-- What spells a character is no interpolated name, and no unknown escape. -/
theorem Piece.spell_known (c : Char) :
    (∀ name, spell c ≠ hole name) ∧ ∀ d, spell c = escape d → (unescape? d).isSome = true := by
  unfold spell
  split
  all_goals
    refine ⟨nofun, ?_⟩
    rintro d ⟨⟩
  all_goals rfl

namespace StringLiteral

variable (start : Position) (triple : Bool) (text : List Char)

/-- The body that spells a text interpolates nothing. -/
theorem holes_spelledBody : (decode start triple (spelledBody text)).holes = [] := by
  refine List.eq_nil_iff_forall_not_mem.2 fun hole member ↦ ?_
  have piece := Piece.mem_of_mem_locate (hole_piece_of_mem_holes member)
  rw [spelledBody, Piece.read_spell] at piece
  obtain ⟨c, -, spelled⟩ := List.mem_map.1 piece
  exact (Piece.spell_known c).1 _ spelled

/-- The body that spells a text has no escape that stands for nothing. -/
theorem invalidEscapes_spelledBody :
    (decode start triple (spelledBody text)).invalidEscapes = [] := by
  refine List.filter_eq_nil_iff.2 fun e member ↦ ?_
  obtain ⟨d, -, decoded, piece⟩ := exists_piece_of_mem_escapes member
  have piece := Piece.mem_of_mem_locate piece
  rw [spelledBody, Piece.read_spell] at piece
  obtain ⟨c, -, spelled⟩ := List.mem_map.1 piece
  have known := (Piece.spell_known c).2 d spelled
  rw [decoded, Option.isNone_eq_false_iff.2 known]
  exact Bool.false_ne_true

end StringLiteral

/-- Whether a text is one line that is one string from its start to its end, with nothing wrong. -/
def IsOneString (text : String) (literal : StringLiteral) : Prop :=
  let stop := Position.start.after text.toList
  tokenize text
    = { tokens := [⟨.string literal, ⟨.start, stop⟩⟩, ⟨.newline, .point stop⟩,
          ⟨.endOfFile, .point stop⟩] }

/-- The literal that is made for a text reads as one string with that text as its value, without
interpolated names and unknown escapes, exactly if no carriage return is in the text: a carriage
return ends a line, and has no escape. -/
theorem tokenize_ofText_iff (text : String) :
    (∃ literal, IsOneString (StringLiteral.ofText text).raw literal
      ∧ literal.raw = (StringLiteral.ofText text).raw ∧ literal.value = text
      ∧ literal.holes = [] ∧ literal.invalidEscapes = []) ↔ '\r' ∉ text.toList := by
  constructor
  · rintro ⟨literal, one, -, value, -⟩
    have shown : ∃ span, visible (tokenize (StringLiteral.ofText text).raw).tokens
        = [⟨.string literal, span⟩] := ⟨_, congrArg (visible ·.tokens) one⟩
    obtain ⟨span, shown⟩ := shown
    exact (readsAsString_ofText_iff text).1 ⟨literal, span, shown, value⟩
  · intro plain
    have first := Cut.first_quote (spelledBody_ne_quote text.toList)
    have all := Cut.ofTail_of_isAll (List.cons_ne_nil '"' []) (Tail.ofQuoted_spelledBody plain)
      (.quoted false) .unterminatedString
    rw [← first] at all
    refine ⟨.decode .start false (StringLiteral.spelledBody text.toList), ?_, rfl, ?_,
      StringLiteral.holes_spelledBody _ _ _, StringLiteral.invalidEscapes_spelledBody _ _ _⟩
    · have raw : (StringLiteral.ofText text).raw
          = String.ofList ('"' :: (StringLiteral.spelledBody text.toList ++ ['"'])) := rfl
      rw [IsOneString, raw, tokenize, String.toList_ofList, tokenizeChars, lexemes_of_rest all.2,
        all.1]
      simp only [runLayout, Layout.step, StringLiteral.invalidEscapes_spelledBody, List.map_nil]
      rfl
    · change String.ofList ((Piece.read _).flatMap Piece.value) = text
      rw [StringLiteral.spelledBody, Piece.value_read_spell, String.ofList_toList]

/-- A text with a carriage return. -/
theorem tokenize_ofText_return :
    ¬∃ literal, IsOneString (StringLiteral.ofText "a\rb").raw literal := by
  rintro ⟨literal, one⟩
  have sound : (tokenize (StringLiteral.ofText "a\rb").raw).errors = [] := by
    rw [show tokenize _ = _ from one]
  revert sound
  decide +kernel

end ProseLang
