import ProseLang.Proofs.Editor.Pieces
import ProseLang.Proofs.Grammar.Places

/-!
# Stretches of tokens

A highlight of a program stands for a token or for a part of one (`Highlight.Shows`): for the whole
token, for its first character, for a line of it, or for a piece of a string. Highlights of one
token start at the same place or do not overlap (`Highlight.Shows.apart`), since a string whose
names are highlighted is not highlighted as a whole elsewhere (`Highlight.holes_eq_nil`). Those of
different tokens precede each other as the tokens do (`Highlight.Stems.apart`).
-/

namespace ProseLang

/-- Whatever takes up some place in the program of a text. -/
def outlinesOf (source : String) : List Outline := Outline.nodesOf (parse source).program.outlines

namespace Highlight

variable {source : String} {t : Token} {g h : Highlight} {kind : HighlightKind}

/-! ## Places of highlights -/

/-- The place of a highlight. -/
def place (h : Highlight) : Nat × Nat × Nat := (h.line, h.start, h.length)

private theorem map_place_nonempty (h : Highlight) :
    (nonempty h).map place = if h.length = 0 then [] else [h.place] := by
  rw [nonempty]
  split <;> rfl

private theorem map_place_ofLines (kind kind' : HighlightKind) (n column : Nat)
    (lines : List (List Char)) :
    (ofLines kind n column lines).map place = (ofLines kind' n column lines).map place := by
  induction lines generalizing n column with
  | nil => rfl
  | cons line lines ih =>
    rw [ofLines, ofLines, List.map_append, List.map_append, ih, map_place_nonempty,
      map_place_nonempty]
    rfl

private theorem map_place_ofText (kind kind' : HighlightKind) (p : Position) (text : List Char) :
    (ofText kind p text).map place = (ofText kind' p text).map place := by
  rw [ofText, ofText]
  split
  · rfl
  · exact map_place_ofLines ..

private theorem map_place_ofStringFrom (kind kind' : HighlightKind) (s : StringLit) (done : Nat)
    (p : Position) (names : List Ident) :
    (ofStringFrom kind s done p names).map place
      = (ofStringFrom kind' s done p names).map place := by
  have rest (done : Nat) (p : Position) :
      (((dropBytes? done s.raw.toList).map (ofText kind p)).getD []).map place
        = (((dropBytes? done s.raw.toList).map (ofText kind' p)).getD []).map place := by
    cases dropBytes? done s.raw.toList with
    | none => rfl
    | some text => exact map_place_ofText ..
  induction names generalizing done p with
  | nil => exact rest done p
  | cons name names ih =>
    cases slice : sliceBytes? done (name.span.start.offset - s.span.start.offset + 1)
        s.raw.toList with
    | none =>
      rw [ofStringFrom, ofStringFrom]
      simp only [slice]
      exact rest done p
    | some front =>
      rw [ofStringFrom_cons slice, ofStringFrom_cons slice]
      simp only [List.map_append, ih, map_place_ofText kind kind']

private theorem map_place_ofString (kind kind' : HighlightKind) (s : StringLit) :
    (ofString kind s).map place = (ofString kind' s).map place := by
  rw [ofString, ofString]
  split
  · rfl
  · exact map_place_ofStringFrom ..

/-- Highlights at the places of others are apart as those are. -/
theorem Apart.of_place (apart : g.Apart h) {g' : Highlight} (same : g'.place = g.place) :
    g'.Apart h := by
  simp only [place, Prod.mk.injEq] at same
  simp only [Apart, samePlace_iff, Precedes] at apart ⊢
  omega

/-- Highlights among lists at the same places, one of which is in order, are apart. -/
theorem apart_of_map_place {text : List Char} {m n : Nat} {gs hs : List Highlight}
    (strip : Strip text m n hs) (same : gs.map place = hs.map place) (hg : g ∈ gs) (hh : h ∈ hs) :
    g.Apart h := by
  have member : g.place ∈ hs.map place := same ▸ List.mem_map_of_mem hg
  obtain ⟨g', hg', at_⟩ := List.mem_map.1 member
  exact (strip.apart hg' hh).of_place at_.symm

/-! ## Tokens -/

/-- What a highlight of a token stands for. -/
inductive Shows (source : String) (t : Token) (h : Highlight) : Prop
  /-- The first character of the token. -/
  | head {before : List Char} {c : Char} (covers : h.Covers source.toList before [c])
    (starts : utf8Length before = t.span.start.offset)
  /-- The whole token; if it is a string, it is not taken apart. -/
  | whole (fills : h.Fills source.toList t.span)
    (single : ∀ literal, t.kind = .string literal → .leaf t.span ∈ outlinesOf source)
  /-- A line of the token. -/
  | line {kind : HighlightKind} {text : String} (written : t.kind.text? = some text)
    (plain : ∀ literal, t.kind ≠ .string literal)
    (member : h ∈ ofText kind t.span.start text.toList)
  /-- A piece of a string. -/
  | piece {kind : HighlightKind} {literal : StringLiteral} (isString : t.kind = .string literal)
    (member : h ∈ ofString kind (.ofLiteral literal t.span))
    (parted : (StringLit.ofLiteral literal t.span).outline ∈ outlinesOf source)

/-- The lines of a token stand in it. -/
theorem strip_token (ht : t ∈ visible (tokenize source).tokens) {text : String}
    (written : t.kind.text? = some text) :
    Strip source.toList t.span.start.offset t.span.stop.offset
      (ofText kind t.span.start text.toList) := by
  obtain ⟨before, c, inner, cut, -, place, spelled⟩ := exists_stretch ht
  have strip := strip_ofText kind cut
  rw [place, spelled text written]
  simpa only [Position.offset_after, Position.start, Nat.zero_add] using strip

/-- A token that is highlighted as a whole is on one line, and its lines are highlighted there. -/
theorem apart_line (ht : t ∈ visible (tokenize source).tokens)
    (fills : g.Fills source.toList t.span) {text : String} (written : t.kind.text? = some text)
    (member : h ∈ ofText kind t.span.start text.toList) : g.Apart h := by
  obtain ⟨before, inner, covers, starts, stops⟩ := fills
  obtain ⟨before', c, inner', cut, -, place, spelled⟩ := exists_stretch ht
  rw [place, Position.after_start] at starts
  rw [place, Position.after_start (before' ++ c :: inner')] at stops
  have whole := eq_of_utf8Length_eq covers.cut cut stops
  obtain rfl := eq_of_utf8Length_eq ((List.prefix_append _ _).trans covers.cut)
    ((List.prefix_append _ _).trans cut) starts
  obtain rfl := List.append_cancel_left whole
  rw [place, spelled text written, Position.after_start] at member
  obtain ⟨line, start⟩ := place_ofText covers.plain member
  rw [Nat.add_sub_cancel_left] at line
  exact .inl (samePlace_iff.2 ⟨covers.line.trans line.symm, covers.start.trans start.symm⟩)

/-! ## Names in strings -/

/-- A string without names is highlighted as a text. -/
theorem mem_ofText_of_mem_ofString {s : StringLit} (none : s.interpolations = [])
    (member : h ∈ ofString kind s) : h ∈ ofText kind s.span.start s.raw.toList := by
  rw [ofString] at member
  split at member
  · cases member
  · rw [none, ofStringFrom] at member
    simpa only [dropBytes?, Option.map_some, Option.getD_some] using member

/-- A name in a string stands behind its first quote. -/
theorem start_lt_of_mem_holes {literal : StringLiteral} {span : Span}
    (ht : ⟨.string literal, span⟩ ∈ visible (tokenize source).tokens) {hole : String × Span}
    (member : hole ∈ literal.holes) : span.start.offset < hole.2.start.offset := by
  obtain ⟨before, after, triple, body, whole, rfl, rfl⟩ := string_mem_tokenize ht
  obtain ⟨left, right, cut, place⟩ := StringLiteral.exists_of_mem_holes member
  have quoted : left ≠ [] := by
    rintro rfl
    cases triple <;> cases cut
  have room := utf8Length_pos quoted
  rw [place]
  simp only [Position.offset_after]
  omega

/-- A string that stands alone in a program and is taken apart has no names in it. -/
theorem holes_eq_nil {literal : StringLiteral} {span : Span}
    (ht : ⟨.string literal, span⟩ ∈ visible (tokenize source).tokens)
    (single : .leaf span ∈ outlinesOf source)
    (parted : (StringLit.ofLiteral literal span).outline ∈ outlinesOf source) :
    literal.holes = [] := by
  have room : span.start.offset < span.stop.offset := (tokenize_partition source).1.nonempty _ ht
  have noParts (same : Outline.leaf span = (StringLit.ofLiteral literal span).outline) :
      literal.holes = [] := by
    have parts := congrArg Outline.parts same
    simpa [Outline.leaf, StringLit.outline, StringLit.ofLiteral] using parts
  rcases apart_or_below_parse source single parted with apart | below | below
  · rcases apart with before | after
    · exact absurd before (Nat.not_le.2 room)
    · exact absurd after (Nat.not_le.2 room)
  · rcases Outline.mem_nodes.1 below with same | ⟨q, hq, below⟩
    · exact noParts same
    · -- the place of a name would be that of the string
      rw [StringLit.outline, Outline.parts_node, Outline.row_node, List.append_nil] at hq
      obtain ⟨name, hname, rfl⟩ := List.mem_map.1 hq
      obtain ⟨hole, hhole, rfl⟩ := List.mem_map.1 hname
      have inner := start_lt_of_mem_holes ht hhole
      rcases Outline.mem_nodes.1 below with same | ⟨r, hr, -⟩
      · have place : span = hole.2 := congrArg Outline.span same
        rw [place] at inner
        exact absurd inner (Nat.lt_irrefl _)
      · cases hr
  · rcases Outline.mem_nodes.1 below with same | ⟨q, hq, -⟩
    · exact noParts same.symm
    · cases hq

namespace Shows

/-- What a highlight of a token stands for is within the token. -/
theorem within (shown : h.Shows source t) (ht : t ∈ visible (tokenize source).tokens) :
    ∃ before inner, h.Covers source.toList before inner
      ∧ t.span.start.offset ≤ utf8Length before
      ∧ utf8Length (before ++ inner) ≤ t.span.stop.offset := by
  cases shown with
  | @head before c covers starts =>
    obtain ⟨before', c', inner, cut, -, place, -⟩ := exists_stretch ht
    have same : utf8Length before = utf8Length before' := by
      rw [starts, place, Position.after_start]
    have longer : utf8Length before < utf8Length (before' ++ c' :: inner) := by
      have room := utf8Length_pos (List.cons_ne_nil c' inner)
      rw [same, utf8Length_append]
      omega
    have upTo := utf8Length_le_of_isPrefix (prefix_append_singleton covers.cut cut longer)
    refine ⟨before, [c], covers, Nat.le_of_eq starts.symm, ?_⟩
    rwa [place, Position.after_start (before' ++ c' :: inner)]
  | whole fills =>
    obtain ⟨before, inner, covers, starts, stops⟩ := fills
    exact ⟨before, inner, covers, Nat.le_of_eq starts.symm, Nat.le_of_eq stops⟩
  | line written plain member => exact (strip_token ht written).covers h member
  | @piece kind literal isString member =>
    rcases t with ⟨k, span⟩
    obtain rfl : k = .string literal := isString
    exact (strip_literal ht).covers h member

/-- The first character of a token is apart from any stretch of the token. -/
theorem apart_head {before : List Char} {c : Char} (covers : g.Covers source.toList before [c])
    (starts : utf8Length before = t.span.start.offset) (hh : h.Shows source t)
    (ht : t ∈ visible (tokenize source).tokens) : g.Apart h := by
  obtain ⟨before', inner, covers', left, -⟩ := hh.within ht
  rw [← starts] at left
  rcases covers.samePlace_or_precedes covers' left with same | precedes
  · exact .inl same
  · exact .inr (.inl precedes)

/-- A token that is highlighted as a whole is apart from any stretch of the token. -/
theorem apart_whole (fills : g.Fills source.toList t.span)
    (single : ∀ literal, t.kind = .string literal → .leaf t.span ∈ outlinesOf source)
    (hh : h.Shows source t) (ht : t ∈ visible (tokenize source).tokens) : g.Apart h := by
  cases hh with
  | head covers starts => exact (apart_head covers starts (.whole fills single) ht).symm
  | whole fills' =>
    obtain ⟨before, inner, covers, starts, -⟩ := fills
    obtain ⟨before', inner', covers', starts', -⟩ := fills'
    exact .inl (covers.samePlace covers' (starts.trans starts'.symm))
  | line written plain member => exact apart_line ht fills written member
  | @piece kind literal isString member parted =>
    have text : t.kind.text? = some literal.raw := by rw [isString]; rfl
    rcases t with ⟨k, span⟩
    obtain rfl : k = .string literal := isString
    have none : (StringLit.ofLiteral literal span).interpolations = [] :=
      List.map_eq_nil_iff.2 (holes_eq_nil ht (single literal rfl) parted)
    exact apart_line ht fills text (mem_ofText_of_mem_ofString none member)

/-- Highlights of one token start at the same place or do not overlap. -/
theorem apart (hg : g.Shows source t) (hh : h.Shows source t)
    (ht : t ∈ visible (tokenize source).tokens) : g.Apart h := by
  cases hg with
  | head covers starts => exact apart_head covers starts hh ht
  | whole fills single => exact apart_whole fills single hh ht
  | line written plain member =>
    cases hh with
    | head covers starts => exact (apart_head covers starts (.line written plain member) ht).symm
    | whole fills => exact (apart_line ht fills written member).symm
    | line written' plain' member' =>
      obtain rfl := Option.some.inj (written.symm.trans written')
      exact apart_of_map_place (strip_token ht written) (map_place_ofText ..) member member'
    | piece isString => exact absurd isString (plain _)
  | piece isString member parted =>
    cases hh with
    | head covers starts =>
      exact (apart_head covers starts (.piece isString member parted) ht).symm
    | whole fills single =>
      exact (apart_whole fills single (.piece isString member parted) ht).symm
    | line written plain => exact absurd isString (plain _)
    | piece isString' member' =>
      obtain rfl := TokenKind.string.inj (isString.symm.trans isString')
      rcases t with ⟨k, span⟩
      obtain rfl : k = .string _ := isString
      exact apart_of_map_place (strip_literal ht) (map_place_ofString ..) member member'

/-- Of the highlights of two tokens one precedes the other. -/
theorem precedes_of_ne {u : Token} (hg : g.Shows source t) (hh : h.Shows source u)
    (ht : t ∈ visible (tokenize source).tokens) (hu : u ∈ visible (tokenize source).tokens)
    (ne : t ≠ u) : g.Precedes h ∨ h.Precedes g := by
  obtain ⟨before, inner, covers, left, right⟩ := hg.within ht
  obtain ⟨before', inner', covers', left', right'⟩ := hh.within hu
  have apart : (visible (tokenize source).tokens).Pairwise fun a b ↦
      a.span.stop.offset ≤ b.span.start.offset ∨ b.span.stop.offset ≤ a.span.start.offset :=
    (tokenize_partition source).1.ordered.imp .inl
  have symmetric : Std.Symm fun a b : Token ↦
      a.span.stop.offset ≤ b.span.start.offset ∨ b.span.stop.offset ≤ a.span.start.offset :=
    ⟨fun _ _ ↦ Or.symm⟩
  rcases apart.forall ht hu ne with before | after
  · exact .inl (covers.precedes covers' (by omega))
  · exact .inr (covers'.precedes covers (by omega))

/-- A highlight that shows a token has a length. -/
theorem room (shown : h.Shows source t) (ht : t ∈ visible (tokenize source).tokens) :
    0 < h.length := by
  obtain ⟨before, inner, covers, -⟩ := shown.within ht
  exact covers.room

/-- Highlights at one place stand for one token. -/
theorem eq_of_samePlace {u : Token} (hg : g.Shows source t) (hh : h.Shows source u)
    (ht : t ∈ visible (tokenize source).tokens) (hu : u ∈ visible (tokenize source).tokens)
    (same : g.samePlace h) : t = u := by
  by_contra ne
  rcases hg.precedes_of_ne hh ht hu ne with before | after
  · exact before.not_samePlace (hg.room ht) same
  · rw [samePlace_comm] at same
    exact after.not_samePlace (hh.room hu) same

end Shows

/-- Whether a highlight stands for a token of a text or for a part of one. -/
def Stems (source : String) (h : Highlight) : Prop :=
  ∃ t ∈ visible (tokenize source).tokens, h.Shows source t

/-- Highlights that stand for tokens start at the same place or do not overlap. -/
theorem Stems.apart (hg : g.Stems source) (hh : h.Stems source) : g.Apart h := by
  obtain ⟨t, ht, shown⟩ := hg
  obtain ⟨u, hu, shown'⟩ := hh
  by_cases same : t = u
  · subst same
    exact shown.apart shown' ht
  · exact .inr (shown.precedes_of_ne shown' ht hu same)

end Highlight

end ProseLang
