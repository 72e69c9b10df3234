import ProseLang.Proofs.Grammar.Coverage
import ProseLang.Proofs.Grammar.EchoStatements
import ProseLang.Proofs.Token.Origins

/-!
# Texts that are read alike

Two texts whose tokens say the same are read alike up to places, also where they have invalid
tokens, at which no error is reported. `Likeness.ofSources` compares them; comments of one may be
changed or left out in the other.
-/

namespace ProseLang

/-! ## Invalid tokens -/

section Rejected

variable {source : String} {t : Token}

/-- The places of the invalid tokens of a text. -/
def rejectedSpans (source : String) : List Span :=
  ((readTokens source).filter (·.kind = .invalid)).map Token.span

private theorem mem_tokenize_of_readTokens (ht : t ∈ readTokens source) :
    t ∈ (tokenize source).tokens := by
  rw [tokenize, tokens_tokenizeChars]
  exact List.mem_append_left _ (mem_of_mem_withoutTrailingComments ht)

private theorem exists_of_mem_rejectedSpans {s : Span} (hs : s ∈ rejectedSpans source) :
    ∃ u ∈ visible (tokenize source).tokens, u.kind = .invalid ∧ u.span = s := by
  obtain ⟨u, hu, rfl⟩ := List.mem_map.1 hs
  obtain ⟨hu, invalid⟩ := List.mem_filter.1 hu
  have invalid := of_decide_eq_true invalid
  exact ⟨u, mem_visible.2 ⟨mem_tokenize_of_readTokens hu, by rw [invalid]; rfl⟩, invalid, rfl⟩

/-- What starts where an invalid token does is that token. -/
theorem kind_of_rejected (ht : t ∈ (tokenize source).tokens) (layout : t.kind.isLayout = false)
    {s : Span} (hs : s ∈ rejectedSpans source) (start : s.start = t.span.start) :
    t.kind = .invalid := by
  obtain ⟨u, hu, invalid, rfl⟩ := exists_of_mem_rejectedSpans hs
  have partition := (tokenize_partition source).1
  rw [← eq_of_start partition.nonempty partition.ordered hu (mem_visible.2 ⟨ht, layout⟩) start,
    invalid]

private theorem point_not_mem_rejectedSpans (source : String) (p : Position) :
    .point p ∉ rejectedSpans source := by
  intro h
  obtain ⟨u, hu, -, point⟩ := exists_of_mem_rejectedSpans h
  have long := (tokenize_partition source).1.nonempty u hu
  rw [point] at long
  exact Nat.lt_irrefl _ long

/-- Only invalid tokens stand where one does. -/
theorem mem_rejectedSpans_iff (ht : t ∈ readTokens source) :
    t.span ∈ rejectedSpans source ↔ t.kind = .invalid := by
  have mem := mem_tokenize_of_readTokens ht
  constructor
  · intro hs
    cases layout : t.kind.isLayout with
    | false => exact kind_of_rejected mem layout hs rfl
    | true =>
      obtain ⟨u, hu, invalid, same⟩ := exists_of_mem_rejectedSpans hs
      rw [tokenize, visible_tokenizeChars] at hu
      obtain ⟨l, hl, token⟩ := List.mem_filterMap.1 hu
      have place := (LexemeAt.token?_eq_some (isWritten_of_mem_lexemes hl) token).1
      have isToken : l.kind?.isSome = true := by
        cases hk : l.kind? with
        | some k => rfl
        | none =>
          rcases LexemeAt.lexeme_of_kind?_none hk with hl | hl | hl <;> rw [LexemeAt.token?, hl]
            at token <;>
            cases token
          cases invalid
      exact absurd (same.symm.trans place) (span_ne_of_isLayout mem layout hl isToken)
  · intro invalid
    exact List.mem_map.2 ⟨t, List.mem_filter.2 ⟨ht, by simpa using invalid⟩, rfl⟩

end Rejected

/-! ## The comparison -/

/-- Forgets a place, but for whether it is one of some invalid tokens. -/
def markPlace (rejected : List Span) (s : Span) : Span :=
  if s ∈ rejected then .point .start else .nowhere

private theorem markPlace_eq_iff {rejected rejected' : List Span} {s s' : Span} :
    markPlace rejected s = markPlace rejected' s' ↔ (s ∈ rejected ↔ s' ∈ rejected') := by
  have apart : Span.point .start ≠ .nowhere := by decide
  by_cases hs : s ∈ rejected <;> by_cases hs' : s' ∈ rejected' <;>
    simp [markPlace, hs, hs', apart, apart.symm]

namespace Recast

/-- Changes the comments, and leaves some of them out. -/
def editing (edit : Comment → Option Comment) : Recast where
  place := id
  extent := id
  comment := edit
  note := id

end Recast

/-- Compares two texts up to places, where `edit` makes the comments of the second of those of the
first. -/
def Likeness.ofSources (source source' : String) (edit : Comment → Option Comment) (drops : Bool)
    (editing : ∀ c, edit c = none ↔ drops = true)
    (both : rejectedSpans source' = [] → rejectedSpans source = []) : Likeness where
  left :=
    { place := markPlace (rejectedSpans source), extent := fun _ ↦ .nowhere,
      comment := fun c ↦ (edit c).bind Recast.bare.comment, note := fun _ ↦ "" }
  right :=
    { place := markPlace (rejectedSpans source'), extent := fun _ ↦ .nowhere,
      comment := Recast.bare.comment, note := fun _ ↦ "" }
  lift :=
    { place := fun s ↦
        if s ∈ rejectedSpans source then (rejectedSpans source').headD .nowhere else .nowhere
      extent := fun _ ↦ .nowhere, comment := edit, note := id }
  after_lift := by
    have place (s : Span) : markPlace (rejectedSpans source')
        (if s ∈ rejectedSpans source then (rejectedSpans source').headD .nowhere else .nowhere)
          = markPlace (rejectedSpans source) s := by
      rw [markPlace_eq_iff]
      by_cases hs : s ∈ rejectedSpans source
      · obtain ⟨s', rest, hs'⟩ := List.exists_cons_of_ne_nil (mt both (List.ne_nil_of_mem hs))
        simp [hs, hs']
      · have nowhere : Span.nowhere ∉ rejectedSpans source' :=
          point_not_mem_rejectedSpans source' ⟨0, 0, 0⟩
        simp [hs, nowhere]
    change Recast.mk ⟨_, _, _⟩ _ = Recast.mk ⟨_, _, _⟩ _
    simp only [place]
    rfl
  drops := drops
  comment_eq_none c := by
    change (edit c).bind Recast.bare.comment = none ↔ _
    rw [← editing c]
    cases edit c <;> simp
  rejected := rejectedSpans source
  rejected' := rejectedSpans source'
  mem_rejected := markPlace_eq_iff.1
  Ends _ _ := True
  ends_of_drops _ _ _ := trivial
  place_point _ := markPlace_eq_iff.2 (iff_of_false (point_not_mem_rejectedSpans _ _)
    (point_not_mem_rejectedSpans _ _))
  extent_nowhere := rfl
  extent_of_place _ := rfl
  extent_close _ _ := rfl

section Sources

variable {source source' : String} {edit : Comment → Option Comment} {drops : Bool}
  {editing : ∀ c, edit c = none ↔ drops = true}
  {both : rejectedSpans source' = [] → rejectedSpans source = []} {t t' : Token}

/-- Kinds of tokens are alike where they say the same, comments aside. -/
theorem like_of_bare {x x' : TokenKind} (h : recast .bare x = recast .bare x') :
    (Likeness.ofSources source source' edit drops editing both).Like x x' := by
  -- of a kind of token, only what is within a string has a place
  have same (place : Span → Span) (comment : Comment → Option Comment) (x : TokenKind) :
      recast ⟨⟨place, fun _ ↦ .nowhere, comment⟩, fun _ ↦ ""⟩ x
        = recast ⟨⟨place, fun _ ↦ .nowhere, comment⟩, fun _ ↦ ""⟩ (recast .bare x) := by
    rw [recast_recast]
    cases x <;> rfl
  exact (same _ _ x).trans ((congrArg _ h).trans (same _ _ x').symm)

/-- Tokens of two texts are alike where they say the same, and `edit` makes one comment of the
other. -/
theorem pairs_ofSources (ht : t ∈ readTokens source) (ht' : t' ∈ readTokens source')
    (kind : (Likeness.ofSources source source' edit drops editing both).Like t.kind t'.kind)
    (comment : ∀ text text', t.kind = .comment text → t'.kind = .comment text' →
      (edit ⟨text, t.span⟩).bind Recast.bare.comment = some ⟨text', .nowhere⟩) :
    (Likeness.ofSources source source' edit drops editing both).Pairs t t' where
  kind := kind
  span := markPlace_eq_iff.2 (by
    rw [mem_rejectedSpans_iff ht, mem_rejectedSpans_iff ht', kind.eq_iff .invalid rfl])
  ends _ := trivial
  starts valid s s' hs hs' _ := by
    have apart {source : String} {t : Token} (ht : t ∈ readTokens source)
      (valid : t.kind.isValid = true)
        {s : Span} (hs : s.start = t.span.start) : s ∉ rejectedSpans source := by
      obtain ⟨inline, sound⟩ := Bool.and_eq_true_iff.1 valid
      intro mem
      exact of_decide_eq_true sound (kind_of_rejected (mem_tokenize_of_readTokens ht)
        (TokenKind.isPlain_facts inline).2.1 mem hs)
    exact markPlace_eq_iff.2 (iff_of_false (apart ht valid hs)
      (apart ht' (kind.isValid ▸ valid) hs'))
  comment text text' hk hk' := by
    rw [Likeness.Like, recast_comment, recast_comment]
    exact congrArg (fun c ↦ c.toList.map Statement.comment) (comment text text' hk hk')

/-- The ends of two files are alike. -/
theorem pairs_endOfFile (p q : Position) :
    (Likeness.ofSources source source' edit drops editing both).Pairs ⟨.endOfFile, .point p⟩
      ⟨.endOfFile, .point q⟩ where
  kind := rfl
  span := (Likeness.ofSources source source' edit drops editing both).place_point trivial
  ends _ := trivial
  starts := nofun
  comment := nofun

/-- Texts are read alike up to the changes of comments, unless an error names a comment that is left
out. -/
theorem parseTokens_ofSources {ts : List Token}
    (h : Abreast (.ofSources source source' edit drops editing both) (.loose false) (startOf source)
      (.ofTokens (withoutTrailingComments none ts))) :
    (∃ e ∈ (parse source).errors, drops = true ∧ e.fault.findsComment = true)
      ∨ (parseTokens ts).errors.map ParseError.fault = (parse source).errors.map ParseError.fault
        ∧ recast .bare (parseTokens ts).program.statements
          = recast .bare (recast (.editing edit) (parse source).program.statements) := by
  have faults (q : Recast) (es : List ParseError) :
      (recast q es).map ParseError.fault = es.map ParseError.fault := by
    induction es with
    | nil => rfl
    | cons e es ih => exact congrArg (e.fault :: ·) ih
  rcases h.readAll with ⟨e, known, harms⟩ | ⟨like, next⟩
  · exact .inl ⟨e, known, harms.drops, harms.findsComment⟩
  · refine .inr ⟨?_, ?_⟩
    · have errors := congrArg (List.map ParseError.fault) next.errors
      rw [faults, faults] at errors
      exact errors.symm
    · have left : (Recast.bare.after
            (Likeness.ofSources source source' edit drops editing both).left).toTreeRecast
          = (Recast.bare.after (.editing edit)).toTreeRecast := by
        have comment (c : Comment) : ((edit c).bind Recast.bare.comment).bind Recast.bare.comment
            = (edit c).bind Recast.bare.comment := by cases edit c <;> rfl
        change TreeRecast.mk _ _ _ = TreeRecast.mk _ _ _
        rw [TreeRecast.mk.injEq]
        exact ⟨rfl, rfl, funext comment⟩
      have statements := congrArg (recast .bare) like
      rw [recast_recast, recast_recast] at statements
      rw [recast_recast]
      exact statements.symm.trans (congrArg (bodyRecasts · _) left)

end Sources

end ProseLang
