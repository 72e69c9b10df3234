import ProseLang.Canonical.Doc
import ProseLang.Proofs.Grammar.Coverage
import ProseLang.Text.LineIndex

/-!
# Source maps and the text that they are for

The marks of a document nest, and its source map lists them from the inside out: of two stretches
the later one follows the earlier one or encloses it (`Mapping.Precedes`). So the stretches around a
point lie one in the other in the order of the list, and the first of them is the innermost. What a
source map should say about a text is `SourceMap.Describes`; a document in which every mark has text
(`Doc.Solid`) and all text is marked (`Doc.Placed`) has a source map that says it (`Doc.describes`).
-/

namespace ProseLang

/-- Whether a source map describes a text: its stretches are parts of the text that nest, each
listed before those around it, with the lines and columns that they have in the text; together they
cover it, and what a point was written for is the source of the innermost stretch around it, which
is the first one listed. -/
structure SourceMap.Describes (s : SourceMap) (text : List Char) : Prop where
  nonempty : ∀ m ∈ s.entries, m.generated.start.offset < m.generated.stop.offset
  nested : s.entries.Pairwise fun m n ↦
    m.generated.stop.offset ≤ n.generated.start.offset
      ∨ n.generated.stop.offset ≤ m.generated.start.offset
      ∨ m.generated.encloses n.generated = true ∨ n.generated.encloses m.generated = true
  inner_first : s.entries.Pairwise fun m n ↦
    m.generated.encloses n.generated = true → n.generated.encloses m.generated = true
  positions : ∀ m ∈ s.entries, m.generated = locate text m.generated
  total : ∀ p : Position, p.offset < utf8Length text →
    ∃ m ∈ s.entries, m.generated.contains p = true
  lookup : ∀ p : Position, p.offset < utf8Length text →
    ∃ m, s.entries.find? (·.generated.contains p) = some m ∧ s.sourceSpan? p = some m.source
      ∧ ∀ n ∈ s.entries, n.generated.contains p = true → n.generated.encloses m.generated = true

/-- Whether the second of two stretches follows the first or encloses it. -/
def Mapping.Precedes (m n : Mapping) : Prop :=
  m.generated.stop.offset ≤ n.generated.start.offset ∨ n.generated.encloses m.generated = true

/-- Whether a mapping is that of a part of a text that starts at `p`. -/
def Mapping.Cuts (p : Position) (text : List Char) (m : Mapping) : Prop :=
  ∃ before inside after, text = before ++ inside ++ after ∧ inside ≠ []
    ∧ m.generated = ⟨p.after before, p.after (before ++ inside)⟩

namespace Mapping

variable {m n : Mapping} {p q : Position} {text : List Char}

private theorem Cuts.bounds (h : m.Cuts p text) :
    p.offset ≤ m.generated.start.offset ∧ m.generated.start.offset < m.generated.stop.offset
      ∧ m.generated.stop.offset ≤ p.offset + utf8Length text := by
  obtain ⟨before, inside, after, rfl, inside_ne_nil, generated⟩ := h
  have room := utf8Length_pos inside_ne_nil
  rw [generated]
  simp only [Position.offset_after, utf8Length_append]
  omega

/-- The lines and columns of a part of a text are those of its offsets. -/
theorem Cuts.located (h : m.Cuts .start text) : m.generated = locate text m.generated := by
  obtain ⟨before, inside, after, rfl, -, generated⟩ := h
  have start := positionAt_boundary before (inside ++ after)
  have stop := positionAt_boundary (before ++ inside) after
  rw [← List.append_assoc] at start
  have offset (chars : List Char) : (Position.start.after chars).offset = utf8Length chars := by
    rw [Position.offset_after]
    exact Nat.zero_add _
  rw [generated, locate, spanAt, offset, offset, start, stop]

/-- Of two stretches around a point the later one encloses the earlier one. -/
theorem Precedes.encloses (h : m.Precedes n) (hm : m.generated.contains q = true)
    (hn : n.generated.contains q = true) : n.generated.encloses m.generated = true := by
  rcases h with apart | encloses
  · simp only [Span.contains, Bool.and_eq_true, decide_eq_true_eq] at hm hn
    omega
  · exact encloses

end Mapping

private theorem Span.length_le_of_encloses {s t : Span} (h : s.encloses t = true) :
    t.length ≤ s.length := by
  simp only [encloses, Bool.and_eq_true, decide_eq_true_eq] at h
  unfold length
  omega

/-- A stretch than which no other one is shorter is the shortest if it comes first. -/
theorem SourceMap.shortest?_cons {m : Mapping} {ms : List Mapping}
    (h : ∀ n ∈ ms, m.generated.length ≤ n.generated.length) : shortest? (m :: ms) = some m := by
  rw [shortest?]
  split
  · rfl
  · next n found =>
    have least := h n (shortest?_eq_some found).1
    rw [if_neg (Nat.not_lt.2 least)]

namespace Doc

/-- Whether every mark of a document has text. -/
def Solid : Doc → Prop
  | text _ => True
  | append a b => a.Solid ∧ b.Solid
  | mark _ d => d.chars ≠ [] ∧ d.Solid

/-- Whether all text of a document is marked with a place. -/
def Placed : Doc → Prop
  | text s => s = ""
  | append a b => a.Placed ∧ b.Placed
  | mark origin d => origin.isNowhere = false ∨ d.Placed

variable {d : Doc} {p q : Position}

private theorem mem_mappings_mark {origin : Span} {m : Mapping} :
    m ∈ (mark origin d).mappings p
      ↔ m ∈ d.mappings p ∨ origin.isNowhere = false ∧ m = ⟨⟨p, d.stop p⟩, origin⟩ := by
  rw [mappings, List.mem_append]
  cases origin.isNowhere <;> simp

/-- The stretches of a document that starts at `p`, each with what is written in it. -/
def stretches (p : Position) : Doc → List (Mapping × Doc)
  | text _ => []
  | append a b => a.stretches p ++ b.stretches (a.stop p)
  | mark origin d =>
    d.stretches p ++ if origin.isNowhere then [] else [(⟨⟨p, d.stop p⟩, origin⟩, d)]

/-- The stretches of a document are those of its mappings. -/
theorem map_fst_stretches (p : Position) (d : Doc) :
    (d.stretches p).map Prod.fst = d.mappings p := by
  induction d generalizing p with
  | text s => rfl
  | append a b iha ihb => rw [stretches, mappings, List.map_append, iha, ihb]
  | mark origin d ih =>
    rw [stretches, mappings, List.map_append, ih]
    split <;> rfl

/-- A mark adds the stretch of what it marks, unless it comes from nowhere. -/
theorem mem_stretches_mark {origin : Span} {e : Mapping × Doc} :
    e ∈ (mark origin d).stretches p
      ↔ e ∈ d.stretches p ∨ origin.isNowhere = false ∧ e = (⟨⟨p, d.stop p⟩, origin⟩, d) := by
  rw [stretches, List.mem_append]
  cases origin.isNowhere <;> simp

/-- What is written in a stretch is the part of the text that it spans. -/
theorem part_of_mem_stretches {m : Mapping} {inner : Doc} (h : (m, inner) ∈ d.stretches p) :
    ∃ before after, d.chars = before ++ inner.chars ++ after
      ∧ m.generated = ⟨p.after before, p.after (before ++ inner.chars)⟩ := by
  induction d generalizing p with
  | text s => cases h
  | append a b iha ihb =>
    rcases List.mem_append.1 h with h | h
    · obtain ⟨before, after, whole, generated⟩ := iha h
      refine ⟨before, after ++ b.chars, ?_, generated⟩
      rw [chars, whole, List.append_assoc]
    · obtain ⟨before, after, whole, generated⟩ := ihb h
      refine ⟨a.chars ++ before, after, ?_, ?_⟩
      · rw [chars, whole]
        simp only [List.append_assoc]
      · rw [generated, stop_eq_after]
        simp only [List.append_assoc, Position.after_append]
  | mark origin d ih =>
    rcases mem_stretches_mark.1 h with h | ⟨-, same⟩
    · exact ih h
    · cases same
      refine ⟨[], [], ?_, ?_⟩
      · simp [chars]
      · rw [stop_eq_after]
        rfl

private theorem Solid.of_mem_stretches (h : d.Solid) {e : Mapping × Doc} (he : e ∈ d.stretches p) :
    e.2.chars ≠ [] := by
  induction d generalizing p with
  | text s => cases he
  | append a b iha ihb => exact (List.mem_append.1 he).elim (iha h.1) (ihb h.2)
  | mark origin d ih =>
    rcases mem_stretches_mark.1 he with he | ⟨-, rfl⟩
    · exact ih h.2 he
    · exact h.1

/-- Each stretch is a part of the text. -/
theorem cuts_of_mem_mappings (h : d.Solid) {m : Mapping} (hm : m ∈ d.mappings p) :
    m.Cuts p d.chars := by
  rw [← map_fst_stretches] at hm
  obtain ⟨⟨m, inner⟩, member, rfl⟩ := List.mem_map.1 hm
  obtain ⟨before, after, whole, generated⟩ := part_of_mem_stretches member
  exact ⟨before, inner.chars, after, whole, h.of_mem_stretches member, generated⟩

/-- Of two stretches the one listed later follows the other or encloses it. -/
theorem pairwise_mappings (h : d.Solid) : (d.mappings p).Pairwise Mapping.Precedes := by
  induction d generalizing p with
  | text s => exact .nil
  | append a b iha ihb =>
    apply List.pairwise_append.2
    refine ⟨iha h.1, ihb h.2, ?_⟩
    intro m hm n hn
    have first := (cuts_of_mem_mappings h.1 hm).bounds
    have second := (cuts_of_mem_mappings h.2 hn).bounds
    rw [stop_eq_after, Position.offset_after] at second
    left
    omega
  | mark origin d ih =>
    apply List.pairwise_append.2
    refine ⟨ih h.2, ?_, ?_⟩
    · split <;> simp
    · intro m hm n hn
      have within := (cuts_of_mem_mappings h.2 hm).bounds
      right
      split at hn
      · cases hn
      · obtain rfl := List.mem_singleton.1 hn
        simp only [Span.encloses, stop_eq_after, Position.offset_after, Bool.and_eq_true,
          decide_eq_true_eq]
        omega

/-- A point of a text that is all marked lies within a stretch. -/
theorem exists_contains (h : d.Placed) (start : p.offset ≤ q.offset)
    (stop : q.offset < (d.stop p).offset) :
    ∃ m ∈ d.mappings p, m.generated.contains q = true := by
  induction d generalizing p with
  | text s =>
    obtain rfl : s = "" := h
    exact absurd stop (Nat.not_lt.2 start)
  | append a b iha ihb =>
    by_cases first : q.offset < (a.stop p).offset
    · obtain ⟨m, hm, contains⟩ := iha h.1 start first
      exact ⟨m, List.mem_append_left _ hm, contains⟩
    · obtain ⟨m, hm, contains⟩ := ihb h.2 (Nat.not_lt.1 first) stop
      exact ⟨m, List.mem_append_right _ hm, contains⟩
  | mark origin d ih =>
    rcases h with placed | placed
    · refine ⟨⟨⟨p, d.stop p⟩, origin⟩, mem_mappings_mark.2 (.inr ⟨placed, rfl⟩), ?_⟩
      simpa [Span.contains] using ⟨start, stop⟩
    · obtain ⟨m, hm, contains⟩ := ih placed start stop
      exact ⟨m, mem_mappings_mark.2 (.inl hm), contains⟩

/-- Of the stretches around a point the first one listed is the innermost, and its source is what
the point was written for. -/
theorem sourceSpan?_of_find? (h : d.Solid) {m : Mapping}
    (found : d.sourceMap.entries.find? (·.generated.contains q) = some m) :
    d.sourceMap.sourceSpan? q = some m.source
      ∧ ∀ n ∈ d.sourceMap.entries, n.generated.contains q = true →
        n.generated.encloses m.generated = true := by
  have ordered := (pairwise_mappings (p := .start) h).filter (·.generated.contains q)
  have head : (d.sourceMap.entries.filter (·.generated.contains q)).head? = some m := by
    rw [List.head?_filter, found]
  obtain ⟨ms, around⟩ := List.head?_eq_some_iff.1 head
  have contains {n : Mapping} (hn : n ∈ m :: ms) : n.generated.contains q = true := by
    rw [← around] at hn
    exact (List.mem_filter.1 hn).2
  have encloses : ∀ n ∈ m :: ms, n.generated.encloses m.generated = true := by
    intro n hn
    rcases List.mem_cons.1 hn with rfl | later
    · simp [Span.encloses]
    · change (d.sourceMap.entries.filter _).Pairwise _ at ordered
      rw [around] at ordered
      have precedes := (List.pairwise_cons.1 ordered).1 n later
      exact precedes.encloses (contains List.mem_cons_self) (contains hn)
  constructor
  · rw [SourceMap.sourceSpan?, SourceMap.innermost?, around, SourceMap.shortest?_cons]
    · rfl
    · intro n hn
      exact Span.length_le_of_encloses (encloses n (List.mem_cons_of_mem m hn))
  · intro n hn inside
    apply encloses
    rw [← around]
    exact List.mem_filter.2 ⟨hn, inside⟩

/-- The source map of a document whose marks have text and whose text is marked describes its
text. -/
theorem describes (solid : d.Solid) (placed : d.Placed) : d.sourceMap.Describes d.chars := by
  have cuts {m : Mapping} (hm : m ∈ d.sourceMap.entries) : m.Cuts .start d.chars :=
    cuts_of_mem_mappings solid hm
  have ordered : d.sourceMap.entries.Pairwise Mapping.Precedes := pairwise_mappings solid
  have total (q : Position) (hq : q.offset < utf8Length d.chars) :
      ∃ m ∈ d.sourceMap.entries, m.generated.contains q = true := by
    apply exists_contains placed (Nat.zero_le _)
    rw [stop_eq_after, Position.offset_after]
    exact Nat.lt_of_lt_of_eq hq (Nat.zero_add _).symm
  constructor
  case nonempty => exact fun m hm ↦ (cuts hm).bounds.2.1
  case nested =>
    refine ordered.imp ?_
    rintro m n (apart | encloses)
    · exact .inl apart
    · exact .inr (.inr (.inr encloses))
  case inner_first =>
    refine ordered.imp_of_mem ?_
    intro m n hm hn precedes within
    have room := (cuts hn).bounds.2.1
    rcases precedes with apart | encloses
    · simp only [Span.encloses, Bool.and_eq_true, decide_eq_true_eq] at within
      omega
    · exact encloses
  case positions => exact fun m hm ↦ (cuts hm).located
  case total => exact total
  case lookup =>
    intro q hq
    obtain ⟨m, hm, contains⟩ := total q hq
    have found : (d.sourceMap.entries.find? (·.generated.contains q)).isSome :=
      List.find?_isSome.2 ⟨m, hm, contains⟩
    obtain ⟨first, here⟩ := Option.isSome_iff_exists.1 found
    exact ⟨first, here, sourceSpan?_of_find? solid here⟩

end Doc

end ProseLang
