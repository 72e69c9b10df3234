import ProseLang.Text.Position

/-!
# Source maps

A source map says which stretches of a canonical text were written for which stretches of the
source text. Main statement: of the stretches around a point none is shorter than the one that
`SourceMap.innermost?` finds (`length_innermost?_le`).
-/

namespace ProseLang

/-- A stretch of canonical text with the place that it was written for (`SourceMapping`). -/
structure Mapping where
  generated : Span
  source : Span
deriving DecidableEq, Repr

/-- The stretches of a canonical text in the order in which they end (`SourceMap`). -/
structure SourceMap where
  entries : List Mapping := []
deriving DecidableEq, Repr

namespace SourceMap

/-- One more stretch, unless it was written for nothing in the source (`SourceMap::push`). -/
def add (m : SourceMap) (generated source : Span) : SourceMap :=
  if source.isNowhere then m else ⟨m.entries ++ [⟨generated, source⟩]⟩

/-- The number of stretches (`SourceMap::len`). -/
def size (m : SourceMap) : Nat := m.entries.length

/-- Whether there are no stretches (`SourceMap::is_empty`). -/
def isEmpty (m : SourceMap) : Bool := m.entries.isEmpty

/-- The shortest of some stretches; the first of equal ones. -/
def shortest? : List Mapping → Option Mapping
  | [] => none
  | m :: ms =>
    match shortest? ms with
    | none => some m
    | some n => if n.generated.length < m.generated.length then some n else some m

/-- The shortest stretch around a point. -/
def innermost? (m : SourceMap) (p : Position) : Option Mapping :=
  shortest? (m.entries.filter (·.generated.contains p))

/-- What a point of the canonical text was written for (`SourceMap::original_span`). -/
def sourceSpan? (m : SourceMap) (p : Position) : Option Span :=
  (m.innermost? p).map Mapping.source

/-- Every stretch that was written for a place (`SourceMap::generated_spans`). -/
def generatedSpans (m : SourceMap) (source : Span) : List Span :=
  (m.entries.filter (·.source = source)).map Mapping.generated

/-- The shortest stretch is one of them, and none is shorter. -/
theorem shortest?_eq_some {ms : List Mapping} {m : Mapping} (h : shortest? ms = some m) :
    m ∈ ms ∧ ∀ n ∈ ms, m.generated.length ≤ n.generated.length := by
  induction ms generalizing m with
  | nil => simp [shortest?] at h
  | cons a ms ih =>
    rw [shortest?] at h
    split at h
    · next hn =>
      obtain rfl : a = m := by simpa using h
      cases ms with
      | nil => simp
      | cons b ms =>
        rw [shortest?] at hn
        split at hn
        · simp at hn
        · split at hn <;> simp at hn
    · next n hn =>
      obtain ⟨member, least⟩ := ih hn
      split at h
      · next shorter =>
        obtain rfl : n = m := by simpa using h
        refine ⟨List.mem_cons_of_mem _ member, fun x hx ↦ ?_⟩
        rcases List.mem_cons.1 hx with rfl | hx
        · exact Nat.le_of_lt shorter
        · exact least x hx
      · next notShorter =>
        obtain rfl : a = m := by simpa using h
        refine ⟨List.mem_cons_self, fun x hx ↦ ?_⟩
        rcases List.mem_cons.1 hx with rfl | hx
        · exact Nat.le_refl _
        · exact Nat.le_trans (Nat.le_of_not_lt notShorter) (least x hx)

/-- No stretch around a point is shorter than the innermost one. -/
theorem length_innermost?_le {s : SourceMap} {p : Position} {m n : Mapping}
    (h : s.innermost? p = some m) (hn : n ∈ s.entries) (hp : n.generated.contains p = true) :
    m.generated.length ≤ n.generated.length :=
  (shortest?_eq_some h).2 n (List.mem_filter.2 ⟨hn, hp⟩)

end SourceMap

end ProseLang
