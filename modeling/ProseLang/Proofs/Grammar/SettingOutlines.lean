import Mathlib.Data.List.Perm.Subperm
import ProseLang.Proofs.Grammar.Settings
import ProseLang.Proofs.Grammar.Tracing

/-!
# Where settings stand

A setting takes the place of the property or modifier that it is read from: whatever a session, an
agent or a header gains by one (`Gains`) lies within that property or modifier. So settings lie as
far apart as what they are read from, in whatever order they come and whichever of them are written
twice (`scattered_foldlM`). What is wrong with a setting is found where it is written.
-/

namespace ProseLang

open Outline

variable {ts : List Token} {m n : Nat}

/-! ## What is taken over -/

/-- Whether things are gained from what stands at a span; some may be lost. -/
def Gains (ts : List Token) (s : Span) (os os' : List Outline) : Prop :=
  ∃ added, os'.Subperm (os ++ added) ∧ Scattered ts s.start.offset s.stop.offset added

/-- Some of the parts that are apart are apart, in any order. -/
theorem Outline.Scattered.subperm {os ps : List Outline} (h : Scattered ts m n ps)
    (sub : os.Subperm ps) : Scattered ts m n os := by
  obtain ⟨qs, same, sub⟩ := sub
  exact Scattered.perm ⟨fun o ho ↦ h.fits o (sub.subset ho), h.apart.sublist sub⟩ same

/-- What a modifier takes up: its value, which is taken over as a whole. -/
def ModifierValue.outline : ModifierValue → Outline
  | string s => s.outline
  | number digits => digits.outline

def Modifier.outline (x : Modifier) : Outline :=
  .node none x.span [] (x.key.toList.map Located.outline ++ [x.value.outline])

/-- What a session takes up besides its arrow. -/
def SessionOf.extent (s : Session) : List Outline :=
  s.outlines ++ s.properties.map PropertyOf.outline

/-- What the definition of an agent takes up. -/
def AgentOf.extent (a : Agent) : List Outline :=
  a.outlines ++ (a.permissions.getD []).map PropertyOf.outline
    ++ a.properties.map PropertyOf.outline

/-- Steps that gain from one thing each keep everything apart. -/
theorem scattered_foldlM {σ α : Type} {extent : σ → List Outline} {outline : α → Outline}
    {K : σ → Prop} {f : σ → α → Except ParseError σ}
    (step : ∀ s x, K s → (outline x).Fits ts m n →
      Conclusion ts (fun s' ↦ K s' ∧ Gains ts (outline x).span (extent s) (extent s')) (f s x))
    {s : σ} {xs : List α} (hs : K s) (h : Scattered ts m n (extent s ++ xs.map outline)) :
    Conclusion ts (fun s' ↦ K s' ∧ Scattered ts m n (extent s')) (xs.foldlM f s) := by
  have kept : Conclusion ts (fun s' ↦ K s' ∧ Scattered ts m n (extent s' ++ [].map outline))
      (xs.foldlM f s) :=
    .foldlM (I := fun s xs ↦ K s ∧ Scattered ts m n (extent s ++ xs.map outline)) ?_ ⟨hs, h⟩
  · exact kept.imp fun s' hs' ↦ by simpa using hs'
  · rintro s x xs ⟨hs, h⟩
    refine (step s x hs (h.fits _ (by simp))).imp ?_
    rintro s' ⟨hs', added, sub, within⟩
    refine ⟨hs', (h.replace within).subperm ?_⟩
    rw [← List.append_assoc]
    exact (List.subperm_append_right _).2 sub

/-- A key with the value beside it, from which something is taken over. -/
theorem scattered_key {key value : Outline} {added : List Outline}
    (h : Strung ts m n [key, value])
    (within : Scattered ts value.span.start.offset value.span.stop.offset added) :
    Scattered ts m n ([key] ++ added) := by
  have split : Scattered ts m n ([key] ++ value :: []) := h.scattered
  simpa using split.replace within

/-- Lists are compared by how often things occur in them. -/
theorem subperm_of_count_le {α : Type} {xs ys : List α}
    (h : ∀ (count : List α → Nat) (one : α → Nat), (∀ a as, count (a :: as) = one a + count as) →
      (∀ as bs, count (as ++ bs) = count as + count bs) → count xs ≤ count ys) :
    xs.Subperm ys := by
  classical
  refine List.subperm_ext_iff.2 fun x _ ↦ h (List.count x) (fun a ↦ if a = x then 1 else 0) ?_ ?_
  · intro a as
    rw [List.count_cons, beq_eq_decide, Nat.add_comm]
    simp
  · exact fun _ _ ↦ List.count_append

/-- Something that stands where a value does. -/
theorem scattered_leaf {value : Outline} (h : value.Fits ts m n) :
    Scattered ts value.span.start.offset value.span.stop.offset [leaf value.span] :=
  .singleton (fits_leaf.2 ⟨⟨Nat.le_refl _, h.place.room, Nat.le_refl _⟩, h.anchored⟩)

/-- What is taken over as it is. -/
theorem scattered_self {value : Outline} (h : value.Fits ts m n) :
    Scattered ts value.span.start.offset value.span.stop.offset [value] :=
  .singleton ⟨⟨Nat.le_refl _, h.place.room, Nat.le_refl _⟩, h.sound⟩

/-- A slot that is filled holds the value; a key that is written twice is found where it stands. -/
theorem setOnce_concludes {α : Type} (slot : Option α) {key : Ident} (value : α)
    (hkey : key.span.Anchored ts) : Conclusion ts (· = some value) (setOnce slot key value) := by
  cases slot with
  | none => exact rfl
  | some old => exact hkey

/-- Whether a record read with a property takes up what it had, the property's key and what the
property sets; some may be lost. There is no record where the property is none of its settings. -/
def TakesUp {σ : Type} (ts : List Token) (K : σ → Prop) (extent : σ → List Outline) (p : Property)
    (s : σ) (r : Option σ) : Prop :=
  ∀ s' ∈ r, K s' ∧ ∃ added, (extent s').Subperm (extent s ++ added)
    ∧ Scattered ts p.span.start.offset p.span.stop.offset ([p.key.outline] ++ added)

/-- A setting that is written once at most: the record with the slot filled takes it up. -/
theorem setOnce_takesUp {σ α : Type} {K : σ → Prop} {extent : σ → List Outline} {p : Property}
    {s : σ} {slot : Option α} {value : α} {fill : Option α → σ} {added : List Outline}
    (hkey : p.key.span.Anchored ts) (keeps : K (fill (some value)))
    (sub : (extent (fill (some value))).Subperm (extent s ++ added))
    (within : Scattered ts p.span.start.offset p.span.stop.offset ([p.key.outline] ++ added)) :
    Conclusion ts (TakesUp ts K extent p s)
    (do return some (fill (← setOnce slot p.key value))) := by
  refine (setOnce_concludes slot value hkey).bind fun r once ↦ ?_
  subst once
  rintro _ ⟨⟩
  exact ⟨keeps, added, sub, within⟩

/-- A record that has the key beside what was set gains all of it from the property. -/
theorem TakesUp.gains {σ : Type} {K : σ → Prop} {extent : σ → List Outline} {p : Property}
    {s s' s'' : σ} (h : TakesUp ts K extent p s (some s'))
    (keyed : (extent s'').Subperm ([p.key.outline] ++ extent s')) :
    Gains ts p.span (extent s) (extent s'') := by
  obtain ⟨-, added, sub, within⟩ := h s' rfl
  refine ⟨_, keyed.trans (((List.subperm_append_left _).2 sub).trans ?_), within⟩
  refine subperm_of_count_le fun count one cons append ↦ ?_
  simp only [append]
  omega

private theorem Expr.span_of_modelName? {e : Expr} {x : Ident} (h : e.modelName? = some x) :
    x.outline = leaf e.outline.span := by
  rw [Expr.outline_span]
  cases e with
  | ident name =>
    obtain rfl : name = x := Option.some.inj h
    rfl
  | string s =>
    obtain rfl : ⟨s.value, s.span⟩ = x := Option.some.inj h
    rfl
  | _ => cases h

private theorem Expr.outlines_of_quoted? {items : List Expr} {xs : List Ident}
    (h : items.mapM Expr.quoted? = some xs) :
    xs.map Located.outline = (items.map Expr.outline).map fun o ↦ leaf o.span := by
  induction items generalizing xs with
  | nil =>
    obtain rfl : [] = xs := Option.some.inj h
    rfl
  | cons e items ih =>
    rw [List.mapM_cons] at h
    obtain ⟨x, here, h⟩ := Option.bind_eq_some_iff.1 h
    obtain ⟨others, there, h⟩ := Option.bind_eq_some_iff.1 h
    obtain rfl : x :: others = xs := Option.some.inj h
    cases e with
    | string s =>
      obtain rfl : ⟨s.value, s.span⟩ = x := Option.some.inj here
      rw [List.map_cons, List.map_cons, List.map_cons, ih there]
      rfl
    | _ => cases here

/-- The skills that an array names stand where its strings do. -/
theorem Expr.scattered_skills {e : Expr} {xs : List Ident} (h : e.skillNames? = some xs)
    (fits : e.outline.Fits ts m n) :
    Scattered ts e.outline.span.start.offset e.outline.span.stop.offset
      (xs.map Located.outline) := by
  cases e with
  | array a =>
    have row := fits.row
    rw [outline_array] at row ⊢
    rw [outlines_of_quoted? h]
    exact row.leaves.scattered
  | _ => cases h

/-! ## Sessions -/

/-- A session with one more modifier. -/
theorem SessionOf.withModifier_concludes {s : Session} {x : Modifier} (bare : s.arrow = none)
    (hx : x.outline.Fits ts m n) :
    Conclusion ts (fun s' ↦ s'.arrow = none ∧ Gains ts x.span s.extent s'.extent)
      (s.withModifier x) := by
  obtain ⟨key, value, span⟩ := x
  have anchored : span.Anchored ts := hx.anchored
  cases key with
  | none => exact anchored
  | some key =>
    have row : Strung ts span.start.offset span.stop.offset [key.outline, value.outline] := hx.row
    have hkey : key.span.Anchored ts := (row.fits key.outline (by simp)).anchored
    have hvalue := row.fits value.outline (by simp)
    have gained := scattered_key row (scattered_leaf hvalue)
    unfold withModifier
    dsimp only
    split
    · next digits _ =>
      refine (countOf_concludes hvalue.anchored).bind fun n same ↦ ?_
      refine (setOnce_concludes _ _ hkey).bind fun r once ↦ ⟨bare, _, ?_, gained⟩
      subst once
      have place : leaf (ModifierValue.number digits).outline.span = n.outline :=
        congrArg leaf same.symm
      refine subperm_of_count_le fun count one cons append ↦ ?_
      simp only [place, extent, outlines, append, cons, List.map_append, Option.toList_some,
        List.map_cons, List.map_nil]
      omega
    · next strategy _ =>
      refine (setOnce_concludes _ _ hkey).bind fun r once ↦ ⟨bare, _, ?_, gained⟩
      subst once
      refine subperm_of_count_le fun count one cons append ↦ ?_
      have place : leaf (ModifierValue.string strategy).outline.span
          = Located.outline ⟨strategy.value, strategy.span⟩ := rfl
      simp only [place, extent, outlines, append, cons, List.map_append, Option.toList_some,
        List.map_cons, List.map_nil]
      omega
    · exact anchored
    · exact anchored
    · exact hkey

/-- A session with a property that sessions have, but for its key. -/
theorem SessionOf.withKnown?_concludes {s : Session} {p : Property} (bare : s.arrow = none)
    (hp : p.outline.Fits ts m n) :
    Conclusion ts (TakesUp ts (·.arrow = none) extent p s) (s.withKnown? p) := by
  have anchored : p.span.Anchored ts := hp.anchored
  have row : Strung ts p.span.start.offset p.span.stop.offset (p.key.outline :: p.value.outlines) :=
    hp.row
  have hkey : p.key.span.Anchored ts := (row.fits _ List.mem_cons_self).anchored
  obtain ⟨key, value, span⟩ := p
  dsimp only at anchored row hkey ⊢
  unfold withKnown?
  dsimp only
  split
  · next agent _ =>
    have within : Scattered ts _ _ ([key.outline] ++ [agent.outline]) := row.scattered
    refine setOnce_takesUp hkey bare ?_ within
    refine subperm_of_count_le fun count one cons append ↦ ?_
    simp only [extent, outlines, append, cons, Option.toList_some, List.map_cons, List.map_nil]
    omega
  · exact anchored
  · next value _ =>
    have hvalue := row.fits value.outline (by simp [outlines_expr])
    split
    · next model named =>
      have place : model.outline = leaf value.outline.span := Expr.span_of_modelName? named
      refine setOnce_takesUp hkey bare ?_ (scattered_key row (scattered_leaf hvalue))
      refine subperm_of_count_le fun count one cons append ↦ ?_
      simp only [extent, outlines, append, cons, Option.toList_some, List.map_cons,
        List.map_nil, place]
      omega
    · exact anchored
  · next prompt _ =>
    have within : Scattered ts _ _ ([key.outline] ++ [prompt.outline]) := row.scattered
    refine setOnce_takesUp hkey bare ?_ within
    refine subperm_of_count_le fun count one cons append ↦ ?_
    simp only [extent, outlines, append, cons, Option.toList_some, List.map_cons, List.map_nil]
    omega
  · exact anchored
  · next value _ =>
    have hvalue := row.fits value.outline (by simp [outlines_expr])
    split
    · next skills named =>
      refine setOnce_takesUp hkey bare ?_ (scattered_key row (Expr.scattered_skills named hvalue))
      refine subperm_of_count_le fun count one cons append ↦ ?_
      simp only [extent, outlines, append, Option.getD_some]
      omega
    · exact anchored
  · next context _ =>
    split
    · rintro _ ⟨⟩
      refine ⟨bare, context.names.map Located.outline, ?_, row.scattered⟩
      refine subperm_of_count_le fun count one cons append ↦ ?_
      simp only [extent, outlines, append]
      omega
    · exact hkey
  · next digits _ =>
    have hvalue := row.fits digits.outline (by exact List.mem_cons_of_mem _ List.mem_cons_self)
    refine (countOf_concludes hvalue.anchored).bind fun n same ↦ ?_
    have place : n.outline = digits.outline := congrArg leaf same
    have within : Scattered ts _ _ ([key.outline] ++ [digits.outline]) := row.scattered
    refine setOnce_takesUp hkey bare ?_ within
    refine subperm_of_count_le fun count one cons append ↦ ?_
    simp only [extent, outlines, append, cons, Option.toList_some, List.map_cons,
      List.map_nil, place]
    omega
  · exact anchored
  · next strategy _ =>
    have hvalue := row.fits strategy.outline (by exact List.mem_cons_of_mem _ List.mem_cons_self)
    have within : Scattered ts _ _ ([key.outline] ++ [leaf strategy.span]) :=
      scattered_key row (scattered_leaf hvalue)
    refine setOnce_takesUp hkey bare ?_ within
    refine subperm_of_count_le fun count one cons append ↦ ?_
    simp only [extent, outlines, append, cons, Option.toList_some, List.map_cons, List.map_nil,
      Located.outline]
    omega
  · exact anchored
  · rintro _ ⟨⟩

/-- A session with one more property: it is a setting, or it is kept as it is. -/
theorem SessionOf.withProperty_concludes {s : Session} {p : Property} (bare : s.arrow = none)
    (hp : p.outline.Fits ts m n) :
    Conclusion ts (fun s' ↦ s'.arrow = none ∧ Gains ts p.span s.extent s'.extent)
      (s.withProperty p) := by
  refine (withKnown?_concludes bare hp).bind fun r known ↦ ?_
  cases r with
  | some s' =>
    refine ⟨(known s' rfl).1, known.gains (subperm_of_count_le fun count one cons append ↦ ?_)⟩
    simp only [extent, outlines, append, cons, List.map_append, List.map_cons, List.map_nil]
    omega
  | none =>
    refine ⟨bare, [p.outline], ?_, scattered_self hp⟩
    rw [extent, extent, List.map_append, ← List.append_assoc]
    exact .refl _

/-- Whether what a session takes up lies apart between two offsets, and no arrow follows it. -/
structure SessionOf.Placed (ts : List Token) (m n : Nat) (s : Session) : Prop where
  bare : s.arrow = none
  apart : Scattered ts m n s.extent

namespace SessionOf.Placed

variable {s : Session} {k : Nat}

/-- What lies between two offsets lies between wider ones. -/
theorem mono {m' n' : Nat} (h : s.Placed ts m n) (hm : m' ≤ m) (hn : n ≤ n') : s.Placed ts m' n' :=
  { h with apart := h.apart.mono hm hn }

/-- What modifiers behind a session set lies behind it. -/
theorem withModifiers {xs : List Modifier} (h : s.Placed ts m k)
    (hxs : Strung ts k n (xs.map Modifier.outline)) (hm : m ≤ k) (hn : k ≤ n) :
    Conclusion ts (SessionOf.Placed ts m n) (s.withModifiers xs) :=
  (scattered_foldlM (fun _ _ ↦ withModifier_concludes) h.bare
    (h.apart.append hxs.scattered hm hn)).imp fun _ hs ↦ ⟨hs.1, hs.2⟩

/-- What properties behind a session set lies behind it. -/
theorem withProperties {ps : List Property} (h : s.Placed ts m k)
    (hps : Strung ts k n (ps.map PropertyOf.outline)) (hm : m ≤ k) (hn : k ≤ n) :
    Conclusion ts (SessionOf.Placed ts m n) (s.withProperties ps) :=
  (scattered_foldlM (fun _ _ ↦ withProperty_concludes) h.bare
    (h.apart.append hps.scattered hm hn)).imp fun _ hs ↦ ⟨hs.1, hs.2⟩

end SessionOf.Placed

/-! ## Agents -/

/-- An agent with a property that agents have, but for its key. -/
theorem AgentOf.withKnown?_concludes {a : Agent} {p : Property} (hp : p.outline.Fits ts m n) :
    Conclusion ts (TakesUp ts (fun _ ↦ True) extent p a) (a.withKnown? p) := by
  have anchored : p.span.Anchored ts := hp.anchored
  have row : Strung ts p.span.start.offset p.span.stop.offset (p.key.outline :: p.value.outlines) :=
    hp.row
  have hkey : p.key.span.Anchored ts := (row.fits _ List.mem_cons_self).anchored
  obtain ⟨key, value, span⟩ := p
  dsimp only at anchored row hkey ⊢
  unfold withKnown?
  dsimp only
  split
  · next value _ =>
    have hvalue := row.fits value.outline (by simp [outlines_expr])
    split
    · next model named =>
      have place : model.outline = leaf value.outline.span := Expr.span_of_modelName? named
      refine setOnce_takesUp hkey trivial ?_ (scattered_key row (scattered_leaf hvalue))
      refine subperm_of_count_le fun count one cons append ↦ ?_
      simp only [extent, outlines, append, cons, Option.toList_some, List.map_cons,
        List.map_nil, place]
      omega
    · exact anchored
  · next prompt _ =>
    have within : Scattered ts _ _ ([key.outline] ++ [prompt.outline]) := row.scattered
    refine setOnce_takesUp hkey trivial ?_ within
    refine subperm_of_count_le fun count one cons append ↦ ?_
    simp only [extent, outlines, append, cons, Option.toList_some, List.map_cons, List.map_nil]
    omega
  · exact anchored
  · next value _ =>
    have hvalue := row.fits value.outline (by simp [outlines_expr])
    split
    · exact hkey
    · split
      · next skills named =>
        rintro _ ⟨⟩
        refine ⟨trivial, skills.map Located.outline, ?_,
          scattered_key row (Expr.scattered_skills named hvalue)⟩
        refine subperm_of_count_le fun count one cons append ↦ ?_
        simp only [extent, outlines, append, cons]
        omega
      · exact anchored
  · next group _ =>
    rw [outlines_nested] at row
    have within : Scattered ts _ _ ([key.outline] ++ group.map PropertyOf.outline) := row.scattered
    refine setOnce_takesUp hkey trivial ?_ within
    refine subperm_of_count_le fun count one cons append ↦ ?_
    simp only [extent, outlines, append, cons, Option.getD_some]
    omega
  · exact anchored
  · rintro _ ⟨⟩

/-- An agent with one more property: it is a setting, or it is kept as it is. -/
theorem AgentOf.withProperty_concludes {a : Agent} {p : Property} (hp : p.outline.Fits ts m n) :
    Conclusion ts (fun a' ↦ Gains ts p.span a.extent a'.extent) (a.withProperty p) := by
  refine (withKnown?_concludes hp).bind fun r known ↦ ?_
  cases r with
  | some a' =>
    refine known.gains (subperm_of_count_le fun count one cons append ↦ ?_)
    simp only [extent, outlines, append, cons, List.map_append, List.map_cons, List.map_nil]
    omega
  | none =>
    refine ⟨[p.outline], ?_, scattered_self hp⟩
    rw [extent, extent, List.map_append, ← List.append_assoc]
    exact .refl _

/-- What properties behind an agent set lies behind it. -/
theorem AgentOf.withProperties_concludes {a : Agent} {ps : List Property} {k : Nat}
    (h : Scattered ts m k a.extent) (hps : Strung ts k n (ps.map PropertyOf.outline)) (hm : m ≤ k)
    (hn : k ≤ n) : Conclusion ts (fun a' ↦ Scattered ts m n a'.extent) (a.withProperties ps) :=
  (scattered_foldlM (K := fun _ ↦ True)
    (fun _ _ _ hp ↦ (withProperty_concludes hp).imp fun _ gains ↦ ⟨trivial, gains⟩) trivial
    (h.append hps.scattered hm hn)).imp fun _ ha ↦ ha.2

/-! ## Headers -/

/-- A parallel block with one more modifier. -/
theorem ParallelOf.withModifier_concludes {p : Parallel} {x : Modifier}
    (hx : x.outline.Fits ts m n) :
    Conclusion ts (fun p' ↦ Gains ts x.span p.outlines p'.outlines) (p.withModifier x) := by
  obtain ⟨key, value, span⟩ := x
  have anchored : span.Anchored ts := hx.anchored
  have row : Strung ts span.start.offset span.stop.offset
      (key.toList.map Located.outline ++ [value.outline]) := hx.row
  have hvalue := row.fits value.outline (by simp)
  unfold withModifier
  cases key with
  | none =>
    dsimp only
    split
    · next s _ =>
      refine ⟨[leaf s.span], ?_, row.leaves.scattered⟩
      refine subperm_of_count_le fun count one cons append ↦ ?_
      simp only [outlines, append, cons, Option.toList_some, List.map_cons, List.map_nil,
        Located.outline]
      omega
    · exact anchored
  | some key =>
    have hkey : key.span.Anchored ts := (row.fits key.outline (by simp)).anchored
    have gained := scattered_key row (scattered_leaf hvalue)
    dsimp only
    split
    · next s _ =>
      refine ⟨_, ?_, gained⟩
      refine subperm_of_count_le fun count one cons append ↦ ?_
      have place : leaf (ModifierValue.string s).outline.span
          = Located.outline ⟨s.value, s.span⟩ := rfl
      simp only [place, outlines, append, cons, List.map_append, Option.toList_some, List.map_cons,
        List.map_nil]
      omega
    · exact anchored
    · next digits _ =>
      refine (countOf_concludes hvalue.anchored).bind fun n same ↦ ⟨_, ?_, gained⟩
      have place : leaf (ModifierValue.number digits).outline.span = n.outline :=
        congrArg leaf same.symm
      refine subperm_of_count_le fun count one cons append ↦ ?_
      simp only [place, outlines, append, cons, List.map_append, Option.toList_some, List.map_cons,
        List.map_nil]
      omega
    · exact anchored
    · exact hkey

/-- A loop with one more modifier. -/
theorem LoopOf.withModifier_concludes {l : Loop} {x : Modifier} (hx : x.outline.Fits ts m n) :
    Conclusion ts (fun l' ↦ Gains ts x.span l.outlines l'.outlines) (l.withModifier x) := by
  obtain ⟨key, value, span⟩ := x
  have anchored : span.Anchored ts := hx.anchored
  cases key with
  | none => exact anchored
  | some key =>
    have row : Strung ts span.start.offset span.stop.offset [key.outline, value.outline] := hx.row
    have hvalue := row.fits value.outline (by simp)
    unfold withModifier
    dsimp only
    split
    · next digits _ =>
      refine (countOf_concludes hvalue.anchored).bind fun n same ↦
        ⟨_, ?_, scattered_key row (scattered_leaf hvalue)⟩
      have place : leaf (ModifierValue.number digits).outline.span = n.outline :=
        congrArg leaf same.symm
      refine subperm_of_count_le fun count one cons append ↦ ?_
      simp only [place, outlines, append, cons, List.map_append, Option.toList_some, List.map_cons,
        List.map_nil]
      omega
    · exact anchored
    · exact anchored

/-- What the modifiers of a parallel block set lies where they do. -/
theorem ParallelOf.withModifiers_concludes {p : Parallel} {xs : List Modifier} {k : Nat}
    (h : Scattered ts m k p.outlines) (hxs : Strung ts k n (xs.map Modifier.outline)) (hm : m ≤ k)
    (hn : k ≤ n) : Conclusion ts (fun p' ↦ Scattered ts m n p'.outlines) (p.withModifiers xs) :=
  (scattered_foldlM (K := fun _ ↦ True)
    (fun _ _ _ hx ↦ (withModifier_concludes hx).imp fun _ gains ↦ ⟨trivial, gains⟩) trivial
    (h.append hxs.scattered hm hn)).imp fun _ hp ↦ hp.2

/-- What the modifiers of a loop set lies where they do. -/
theorem LoopOf.withModifiers_concludes {l : Loop} {xs : List Modifier} {k : Nat}
    (h : Scattered ts m k l.outlines) (hxs : Strung ts k n (xs.map Modifier.outline)) (hm : m ≤ k)
    (hn : k ≤ n) : Conclusion ts (fun l' ↦ Scattered ts m n l'.outlines) (l.withModifiers xs) :=
  (scattered_foldlM (K := fun _ ↦ True)
    (fun _ _ _ hx ↦ (withModifier_concludes hx).imp fun _ gains ↦ ⟨trivial, gains⟩) trivial
    (h.append hxs.scattered hm hn)).imp fun _ hl ↦ hl.2

end ProseLang
