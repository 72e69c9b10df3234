import Mathlib.Data.List.Chain
import ProseLang.Proofs.Grammar.Source

/-!
# Where blocks open

The layout opens a block for the first token of a line, and lets comments that wait for this line
stand between them. So code follows wherever a block opens (`OpensCode`), and what is read has no
comment where a line goes on (`OwnLines`). Every text is tokenized so (`laidOut_readTokens`).
-/

namespace ProseLang

/-- Whether code follows wherever a block opens, behind comments at most. -/
def OpensCode : List Token → Prop
  | [] => True
  | t :: rest =>
    (t.kind = .indent → ∃ u ∈ rest.find? (!·.kind.isComment), u.kind.isPlain = true)
      ∧ OpensCode rest

/-- Whether comments stand on lines of their own. -/
def OwnLines (ts : List Token) : Prop :=
  ts.IsChain fun t u ↦ u.kind.isComment = true → t.kind.beforeOwnLine = true

/-- Whether code follows wherever a block opens, and comments stand on lines of their own. -/
structure LaidOut (ts : List Token) : Prop where
  opens : OpensCode ts
  lines : OwnLines ts

section

variable {ts us : List Token} {k : Option TokenKind}

private theorem opensCode_append (h : OpensCode ts) (h' : OpensCode us) : OpensCode (ts ++ us) := by
  induction ts with
  | nil => exact h'
  | cons t ts ih =>
    refine ⟨fun opens ↦ ?_, ih h.2⟩
    obtain ⟨u, hu, plain⟩ := h.1 opens
    refine ⟨u, ?_, plain⟩
    change (ts ++ us).find? _ = some u
    rw [List.find?_append, Option.mem_def.1 hu, Option.some_or]

private theorem opensCode_of_forall (h : ∀ t ∈ ts, t.kind ≠ .indent) : OpensCode ts := by
  induction ts with
  | nil => trivial
  | cons t ts ih =>
    obtain ⟨ht, hts⟩ := List.forall_mem_cons.1 h
    exact ⟨fun opens ↦ absurd opens ht, ih hts⟩

/-- Code still follows in what is left of a stream. -/
theorem OpensCode.suffix (h : OpensCode ts) (hs : us <:+ ts) : OpensCode us := by
  obtain ⟨before, rfl⟩ := hs
  induction before with
  | nil => exact h
  | cons t before ih => exact ih h.2

/-- The comments at the ends of lines hide no code. -/
theorem opensCode_withoutTrailingComments (h : OpensCode ts) :
    OpensCode (withoutTrailingComments k ts) := by
  induction ts generalizing k with
  | nil => trivial
  | cons t ts ih =>
    rw [withoutTrailingComments]
    split
    · exact ih h.2
    · exact ⟨fun opens ↦ by rw [find?_withoutTrailingComments]; exact h.1 opens, ih h.2⟩

/-- The comments that are not at the ends of lines are on lines of their own. -/
theorem ownLines_withoutTrailingComments : OwnLines (withoutTrailingComments k ts) := by
  induction ts generalizing k with
  | nil => exact .nil
  | cons t ts ih =>
    rw [withoutTrailingComments]
    split
    · exact ih
    · refine List.isChain_cons.2 ⟨fun u hu comment ↦ ?_, ih⟩
      -- the first token that is kept after another one was looked at beside that one
      clear ih
      induction ts with
      | nil => cases hu
      | cons v ts ih =>
        rw [withoutTrailingComments] at hu
        split at hu
        · exact ih hu
        · next stays =>
          obtain rfl : v = u := Option.some.inj hu
          simpa [comment] using stays

end

/-! ## What the layout gives -/

namespace Layout

variable {s : Layout} {l : LexemeAt}

private theorem kind_ne_indent_of_isPlain {k : TokenKind} (h : k.isPlain = true) : k ≠ .indent := by
  rintro rfl
  cases h

private theorem kind_ne_indent_of_mem_held (held : onlyComments s.held = true) {t : Token}
    (ht : t ∈ s.held) : t.kind ≠ .indent := by
  intro hk
  have comment := List.all_eq_true.1 held t ht
  rw [hk] at comment
  cases comment

private theorem kind_ne_indent_of_mem_ended {t : Token} (ht : t ∈ s.ended) : t.kind ≠ .indent := by
  obtain ⟨span, -, rfl⟩ := List.mem_map.1 ht
  nofun

private theorem kind_ne_indent_of_mem_dedents {n : Nat} {p : Position} {t : Token}
    (ht : t ∈ dedents n p) : t.kind ≠ .indent := by
  rw [List.eq_of_mem_replicate ht]
  nofun

private theorem opensCode_token (held : onlyComments s.held = true) {k : TokenKind}
    (hk : k.isPlain = true) (span : Span) : OpensCode (s.token k span).2.tokens := by
  have code : OpensCode [⟨k, span⟩] :=
    opensCode_of_forall (List.forall_mem_singleton.2 (kind_ne_indent_of_isPlain hk))
  have waiting : OpensCode s.held := opensCode_of_forall fun _ ↦ kind_ne_indent_of_mem_held held
  have ended : OpensCode s.ended := opensCode_of_forall fun _ ↦ kind_ne_indent_of_mem_ended
  have closed (n : Nat) (p : Position) : OpensCode (dedents n p) :=
    opensCode_of_forall fun _ ↦ kind_ne_indent_of_mem_dedents
  rw [token_snd]
  split
  · rcases s.startLine_cases (k = .symbol .pipe) span.start with
      ⟨width, place, -, -, out⟩ | ⟨n, kept, -, -, -, out | out⟩
    · rw [out, List.append_assoc, List.cons_append]
      refine opensCode_append ended ⟨fun _ ↦ ?_, opensCode_append waiting code⟩
      refine ⟨⟨k, span⟩, ?_, hk⟩
      rw [find?_comments_append held]
      have notComment : k.isComment = false := by
        generalize k = kind at hk
        cases kind <;> first | rfl | cases hk
      simp [notComment]
    · rw [out]
      exact opensCode_append (opensCode_append ended (opensCode_append (closed _ _) waiting)) code
    · rw [out]
      exact opensCode_append (opensCode_append waiting (closed _ _)) code
  · exact code

/-- What a lexeme gives opens a block only for code. -/
theorem opensCode_step (held : onlyComments s.held = true) : OpensCode (s.step l).2.tokens := by
  cases hk : l.kind? with
  | some k =>
    rw [step_of_kind? hk]
    exact opensCode_token held (LexemeAt.isPlain_of_kind? hk) l.span
  | none =>
    rcases LexemeAt.lexeme_of_kind?_none hk with hl | hl | hl
    · rw [step_of_blank hl]
      trivial
    · rw [step_of_lineBreak hl]
      trivial
    · rw [step_of_comment hl, comment]
      split
      · exact opensCode_of_forall (List.forall_mem_singleton.2 (by simp))
      · trivial

private theorem opensCode_closing (held : onlyComments s.held = true) (p : Position) :
    OpensCode (s.closing p) := by
  refine opensCode_append (opensCode_append (opensCode_of_forall fun t ht ↦ ?_)
    (opensCode_of_forall fun _ ↦ kind_ne_indent_of_mem_dedents))
    (opensCode_of_forall fun _ ↦ kind_ne_indent_of_mem_held held)
  split at ht
  · rw [List.mem_singleton.1 ht]
    nofun
  · split at ht
    · rw [List.mem_singleton.1 ht]
      nofun
    · cases ht

end Layout

private theorem opensCode_runLayout {s : Layout} {ls : List LexemeAt}
    (held : onlyComments s.held = true) : OpensCode (runLayout s ls).2.tokens := by
  induction ls generalizing s with
  | nil => trivial
  | cons l ls ih => exact opensCode_append (Layout.opensCode_step held) (ih (Layout.held_step held))

variable (source : String)

/-- The tokens that are read of a text are laid out. -/
theorem laidOut_readTokens : LaidOut (readTokens source) where
  opens := opensCode_withoutTrailingComments
    (opensCode_append (opensCode_runLayout rfl) (Layout.opensCode_closing (held_runLayout rfl) _))
  lines := ownLines_withoutTrailingComments

end ProseLang
