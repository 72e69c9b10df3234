import ProseLang.Proofs.Grammar.Outline
import ProseLang.Proofs.Token.Places

/-!
# Outlines among tokens

`Outline.Fits` is what readers of tokens know of an outline: it lies between two offsets, and every
part below it is sound (`Outline.Sound`). A sound part goes from the edge of one token to the edge
of another, starts with its word if it has one, and holds things that lie within it and apart from
each other.

What a reader finds one after the other is strung between two offsets (`Outline.Strung`). Settings
come in any order, so they are only scattered there (`Outline.Scattered`); a setting may take the
place of the property that it was read from (`Scattered.replace`).
-/

namespace ProseLang

/-! ## Places among tokens -/

/-- Whether one of some tokens, or something in one, starts or ends at a position. -/
def Position.IsEdge (ts : List Token) (p : Position) : Prop :=
  ∃ t ∈ ts, ∃ s ∈ t.places, p = s.start ∨ p = s.stop

/-- Whether a span goes forward from one edge of tokens to another. -/
structure Span.Anchored (ts : List Token) (s : Span) : Prop where
  starts : s.start.IsEdge ts
  stops : s.stop.IsEdge ts
  forward : s.start.offset ≤ s.stop.offset

/-- Whether a span takes up some room between two offsets. -/
structure Span.Between (m n : Nat) (s : Span) : Prop where
  left : m ≤ s.start.offset
  room : s.start.offset < s.stop.offset
  right : s.stop.offset ≤ n

/-- Whether a span takes up some room between two offsets, from one edge of tokens to another. -/
structure Span.Stands (ts : List Token) (m n : Nat) (s : Span) : Prop extends s.Between m n where
  anchored : s.Anchored ts

/-- Whether a token of a kind stands beside the constructs of a program: a comment or an arrow. -/
def TokenKind.isAside : TokenKind → Bool
  | comment _ | symbol .arrow => true
  | _ => false

/-- Whether a token that may begin a construct starts where a span does. -/
def Span.Begins (ts : List Token) (s : Span) : Prop :=
  ∃ t ∈ visible ts, t.span.start = s.start ∧ t.kind.isAside = false

/-- Whether one of some tokens is a reserved word at the start of a span. -/
def Keyword.Opens (ts : List Token) (s : Span) (word : Keyword) : Prop :=
  ∃ t ∈ ts, t.kind = .keyword word ∧ t.span.start = s.start

/-- Whether a span between two offsets is that of a token with which a construct may start, with its
reserved word if it has one. -/
structure Span.Leads (ts : List Token) (m n : Nat) (opener : Option Keyword) (s : Span) : Prop where
  place : s.Stands ts m n
  begins : s.Begins ts
  opens : ∀ word ∈ opener, word.Opens ts s

section

variable {ts : List Token} {m m' n n' : Nat} {s t : Span}

/-- A token starts at an edge. -/
theorem Token.isEdge_start {t : Token} (h : t ∈ ts) : t.span.start.IsEdge ts :=
  ⟨t, h, t.span, List.mem_cons_self, .inl rfl⟩

/-- A token ends at an edge. -/
theorem Token.isEdge_stop {t : Token} (h : t ∈ ts) : t.span.stop.IsEdge ts :=
  ⟨t, h, t.span, List.mem_cons_self, .inr rfl⟩

private theorem Span.Between.mono (h : s.Between m n) (hm : m' ≤ m) (hn : n ≤ n') :
    s.Between m' n' :=
  ⟨Nat.le_trans hm h.left, h.room, Nat.le_trans h.right hn⟩

/-- A span between two offsets starts before the second one. -/
theorem Span.Between.before (h : s.Between m n) : s.start.offset ≤ n :=
  Nat.le_of_lt (Nat.lt_of_lt_of_le h.room h.right)

/-- There is room between two offsets with a span in between. -/
theorem Span.Between.lt (h : s.Between m n) : m < n :=
  Nat.lt_of_le_of_lt h.left (Nat.lt_of_lt_of_le h.room h.right)

/-- A span encloses another if it starts no later and ends no earlier. -/
theorem Span.encloses_iff :
    s.encloses t = true ↔ s.start.offset ≤ t.start.offset ∧ t.stop.offset ≤ s.stop.offset := by
  simp [Span.encloses]

private theorem Span.Between.encloses (h : t.Between s.start.offset s.stop.offset) :
    s.encloses t = true := Span.encloses_iff.2 ⟨h.left, h.right⟩

/-- A span that stands between two offsets does so between wider ones. -/
theorem Span.Stands.mono (h : s.Stands ts m n) (hm : m' ≤ m) (hn : n ≤ n') : s.Stands ts m' n' :=
  ⟨h.toBetween.mono hm hn, h.anchored⟩

end

namespace Outline

/-- Whether one of two parts ends before the other one starts. -/
def Apart (a b : Outline) : Prop :=
  a.span.stop.offset ≤ b.span.start.offset ∨ b.span.stop.offset ≤ a.span.start.offset

/-- Whether a part is placed among tokens as readers place it. -/
structure Sound (ts : List Token) (o : Outline) : Prop extends o.Nests where
  anchored : o.span.Anchored ts
  opens : ∀ word ∈ o.opener, word.Opens ts o.span
  begins : o.parts ≠ [] → o.span.Begins ts
  apart : (o.parts ++ o.row).Pairwise Apart

/-- Whether an outline lies between two offsets, and it is sound with everything below it. -/
structure Fits (ts : List Token) (m n : Nat) (o : Outline) : Prop where
  place : o.span.Between m n
  sound : ∀ p ∈ o.nodes, p.Sound ts

/-- Whether outlines lie between two offsets, apart from each other. -/
structure Scattered (ts : List Token) (m n : Nat) (os : List Outline) : Prop where
  fits : ∀ o ∈ os, o.Fits ts m n
  apart : os.Pairwise Apart

/-- Whether outlines lie between two offsets one after the other. -/
structure Strung (ts : List Token) (m n : Nat) (os : List Outline) : Prop where
  fits : ∀ o ∈ os, o.Fits ts m n
  ordered : os.Pairwise fun a b ↦ a.span.stop.offset ≤ b.span.start.offset

variable {ts : List Token} {m m' j k n n' : Nat} {o p : Outline} {os ps rs : List Outline}

/-- Two parts are apart in either order. -/
theorem Apart.symm (h : o.Apart p) : p.Apart o := Or.symm h

namespace Fits

/-- What fits in between two offsets fits in between wider ones. -/
theorem mono (h : o.Fits ts m n) (hm : m' ≤ m) (hn : n ≤ n') : o.Fits ts m' n' :=
  { h with place := h.place.mono hm hn }

private theorem stands (h : o.Fits ts m n) : o.span.Stands ts m n :=
  ⟨h.place, (h.sound o o.self_mem_nodes).anchored⟩

/-- The place of what fits in goes from an edge to another. -/
theorem anchored (h : o.Fits ts m n) : o.span.Anchored ts := h.stands.anchored

/-- Nothing starts earlier than it does. -/
theorem tight (h : o.Fits ts m n) : o.Fits ts o.span.start.offset n :=
  { h with place := ⟨Nat.le_refl _, h.place.room, h.place.right⟩ }

end Fits

/-- What holds nothing fits in where its place stands. -/
theorem fits_leaf {s : Span} : (leaf s).Fits ts m n ↔ s.Stands ts m n := by
  refine ⟨Fits.stands, fun h ↦ ⟨h.toBetween, fun p hp ↦ ?_⟩⟩
  rcases mem_nodes.1 hp with rfl | ⟨q, hq, -⟩
  · exact { anchored := h.anchored, opens := nofun, begins := fun h ↦ absurd rfl h, room := h.room
            within := nofun, ordered := .nil, apart := .nil }
  · cases hq

/-! ## Things between two offsets -/

namespace Scattered

/-- Nothing is apart. -/
theorem nil : Scattered ts m n [] := ⟨nofun, .nil⟩

/-- What is apart between two offsets is so between wider ones. -/
theorem mono (h : Scattered ts m n os) (hm : m' ≤ m) (hn : n ≤ n') : Scattered ts m' n' os :=
  { h with fits := fun o ho ↦ (h.fits o ho).mono hm hn }

/-- One part is apart. -/
theorem singleton (h : o.Fits ts m n) : Scattered ts m n [o] where
  fits := List.forall_mem_singleton.2 h
  apart := List.pairwise_singleton _ o

/-- Outlines on both sides of an offset. -/
theorem append (h : Scattered ts m k os) (h' : Scattered ts k n ps) (hm : m ≤ k) (hn : k ≤ n) :
    Scattered ts m n (os ++ ps) where
  fits o ho := by
    rcases List.mem_append.1 ho with ho | ho
    · exact (h.fits o ho).mono (Nat.le_refl m) hn
    · exact (h'.fits o ho).mono hm (Nat.le_refl n)
  apart := List.pairwise_append.2 ⟨h.apart, h'.apart, fun a ha b hb ↦
    .inl (Nat.le_trans (h.fits a ha).place.right (h'.fits b hb).place.left)⟩

/-- The order of parts does not matter to their being apart. -/
theorem perm (h : Scattered ts m n os) (same : os.Perm ps) : Scattered ts m n ps where
  fits o ho := h.fits o (same.mem_iff.2 ho)
  apart := same.pairwise h.apart fun {_ _} ↦ Apart.symm

/-- Something may be replaced by what lies within it. -/
theorem replace (h : Scattered ts m n (os ++ o :: ps))
    (within : Scattered ts o.span.start.offset o.span.stop.offset rs) :
    Scattered ts m n (os ++ (rs ++ ps)) := by
  obtain ⟨fits, apart⟩ := h
  obtain ⟨first, others, before⟩ := List.pairwise_append.1 apart
  obtain ⟨after, last⟩ := List.pairwise_cons.1 others
  have self := (fits o (by simp)).place
  -- what lies apart from a thing lies apart from what is within it
  have beside {a r : Outline} (hr : r ∈ rs) (h : a.Apart o) : a.Apart r := by
    have inner := (within.fits r hr).place
    exact h.imp (fun h ↦ Nat.le_trans h inner.left) (fun h ↦ Nat.le_trans inner.right h)
  refine ⟨fun a ha ↦ ?_, ?_⟩
  · rcases List.mem_append.1 ha with ha | ha
    · exact fits a (List.mem_append_left _ ha)
    rcases List.mem_append.1 ha with ha | ha
    · exact (within.fits a ha).mono self.left self.right
    · exact fits a (List.mem_append_right _ (List.mem_cons_of_mem _ ha))
  · refine List.pairwise_append.2 ⟨first, List.pairwise_append.2 ⟨within.apart, last, ?_⟩, ?_⟩
    · exact fun r hr b hb ↦ (beside hr (after b hb).symm).symm
    · intro a ha b hb
      rcases List.mem_append.1 hb with hb | hb
      · exact beside hb (before a ha o List.mem_cons_self)
      · exact before a ha b (List.mem_cons_of_mem _ hb)

end Scattered

namespace Strung

/-- Nothing is in a row. -/
theorem nil : Strung ts m n [] := ⟨nofun, .nil⟩

/-- What is in a row between two offsets is so between wider ones. -/
theorem mono (h : Strung ts m n os) (hm : m' ≤ m) (hn : n ≤ n') : Strung ts m' n' os :=
  { h with fits := fun o ho ↦ (h.fits o ho).mono hm hn }

/-- Outlines on both sides of an offset. -/
theorem append (h : Strung ts m k os) (h' : Strung ts k n ps) (hm : m ≤ k) (hn : k ≤ n) :
    Strung ts m n (os ++ ps) where
  fits o ho := by
    rcases List.mem_append.1 ho with ho | ho
    · exact (h.fits o ho).mono (Nat.le_refl m) hn
    · exact (h'.fits o ho).mono hm (Nat.le_refl n)
  ordered := List.pairwise_append.2 ⟨h.ordered, h'.ordered, fun a ha b hb ↦
    Nat.le_trans (h.fits a ha).place.right (h'.fits b hb).place.left⟩

/-- One part is in a row. -/
theorem singleton (h : o.Fits ts m n) : Strung ts m n [o] where
  fits := List.forall_mem_singleton.2 h
  ordered := List.pairwise_singleton _ o

/-- A part in front of a row. -/
theorem cons (h : o.Fits ts m k) (h' : Strung ts k n os) (hm : m ≤ k) (hn : k ≤ n) :
    Strung ts m n (o :: os) := (singleton h).append h' hm hn

/-- Parts in a row are apart. -/
theorem scattered (h : Strung ts m n os) : Scattered ts m n os where
  fits := h.fits
  apart := h.ordered.imp .inl

/-- What stands where other things do. -/
theorem leaves (h : Strung ts m n os) : Strung ts m n (os.map fun o ↦ leaf o.span) where
  fits := List.forall_mem_map.2 fun o ho ↦ fits_leaf.2 (h.fits o ho).stands
  ordered := List.pairwise_map.2 h.ordered

/-- A statement with no arrow after it. -/
theorem bare {s : Statement} (h : s.outline.Fits ts m n) (bare : s.arrow? = none) :
    Strung ts m n s.outlines := by
  rw [Statement.outlines, bare]
  exact .singleton h

end Strung

/-! ## Constructs -/

variable {opener : Option Keyword} {s first : Span} {stop : Position}

namespace Fits

/-- A construct that holds what is scattered within it. -/
theorem node (place : s.Stands ts m n) (opens : ∀ word ∈ opener, word.Opens ts s)
    (begins : ps ≠ [] → s.Begins ts)
    (held : Scattered ts s.start.offset s.stop.offset (ps ++ os))
    (ordered : os.Pairwise fun a b ↦ a.span.stop.offset ≤ b.span.start.offset) :
    (Outline.node opener s ps os).Fits ts m n := by
  refine ⟨place.toBetween, fun p hp ↦ ?_⟩
  rcases mem_nodes.1 hp with rfl | ⟨q, hq, hp⟩
  · exact { anchored := place.anchored, opens, begins, room := place.room, ordered
            within := fun o ho ↦ (held.fits o ho).place.encloses, apart := held.apart }
  · exact (held.fits q hq).sound p hp

/-- What a construct that fits holds. -/
theorem held (h : o.Fits ts m n) :
    Scattered ts o.span.start.offset o.span.stop.offset (o.parts ++ o.row) where
  fits p hp := by
    have inner : ∀ q ∈ p.nodes, q.Sound ts := fun q hq ↦ h.sound q (mem_nodes.2 (.inr ⟨p, hp, hq⟩))
    have within := Span.encloses_iff.1 ((h.sound o o.self_mem_nodes).within p hp)
    exact ⟨⟨within.1, (inner p p.self_mem_nodes).room, within.2⟩, inner⟩
  apart := (h.sound o o.self_mem_nodes).apart

/-- What a construct that fits holds in a row. -/
theorem row (h : o.Fits ts m n) : Strung ts o.span.start.offset o.span.stop.offset o.row where
  fits p hp := h.held.fits p (List.mem_append_right _ hp)
  ordered := (h.sound o o.self_mem_nodes).ordered

/-- A construct from its first token to where the last one ends, with its row behind its parts. -/
theorem opened (leads : first.Leads ts m k opener) (hk : k ≤ stop.offset)
    (ends : 0 < stop.offset → stop.IsEdge ts) (parts : Scattered ts first.start.offset j ps)
    (row : Strung ts j stop.offset os) (hj : first.start.offset ≤ j ∧ j ≤ stop.offset) :
    (Outline.node opener ⟨first.start, stop⟩ ps os).Fits ts m stop.offset := by
  have room := leads.place.room
  have reached := Nat.le_trans leads.place.right hk
  have forward : first.start.offset < stop.offset := Nat.lt_of_lt_of_le room reached
  have edge := ends (Nat.lt_of_le_of_lt (Nat.zero_le _) forward)
  refine .node ⟨⟨leads.place.left, forward, Nat.le_refl _⟩, ?_⟩ leads.opens (fun _ ↦ leads.begins)
    (parts.append row.scattered hj.1 hj.2) row.ordered
  exact ⟨leads.place.anchored.starts, edge, Nat.le_of_lt forward⟩

/-- A construct that starts where the first part in its row does. -/
theorem leading (h : o.Fits ts m k) (starts : o.span.start = first.start)
    (opens : ∀ word ∈ opener, word.Opens ts first) (hk : k ≤ stop.offset)
    (ends : 0 < stop.offset → stop.IsEdge ts) (others : Strung ts k stop.offset os) :
    (Outline.node opener ⟨first.start, stop⟩ [] (o :: os)).Fits ts m stop.offset := by
  rcases first with ⟨begin, _⟩
  obtain rfl : begin = o.span.start := starts.symm
  obtain ⟨left, room, right⟩ := h.place
  have forward : o.span.start.offset < stop.offset :=
    Nat.lt_of_lt_of_le room (Nat.le_trans right hk)
  have edge := ends (Nat.lt_of_le_of_lt (Nat.zero_le _) forward)
  have row : Strung ts o.span.start.offset stop.offset (o :: os) :=
    .cons h.tight others (Nat.le_of_lt (Nat.lt_of_lt_of_le room right)) hk
  refine .node ⟨⟨left, forward, Nat.le_refl _⟩, ?_⟩ opens (fun h ↦ absurd rfl h) row.scattered
    row.ordered
  exact ⟨h.anchored.starts, edge, Nat.le_of_lt forward⟩

end Fits

end Outline

end ProseLang
