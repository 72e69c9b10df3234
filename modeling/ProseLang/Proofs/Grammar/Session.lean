import ProseLang.Proofs.Grammar.Blocks
import ProseLang.Proofs.Grammar.RecastSettings

/-!
# Sessions and agents within surroundings
-/

namespace ProseLang

namespace Parser

variable {e : Surroundings} {L n : Nat} {c : Cursor} {g g' : Nested}

private theorem modifierKey?_reads (h : c.Live L n) :
    Reads e L c (fun _ d ↦ d.Live L n) modifierKey? modifierKey? := by
  refine peek_reads h.ne_nil ?_
  cases hk : c.current.kind with
  | identifier word =>
    have plain : c.current.kind.isPlain = true := by rw [hk]; rfl
    have advanced := (h.at.mono (Nat.le_succ n)).advance plain
    refine peekNext_reads (tail_ne_nil h.at plain) ?_
    by_cases hnext : c.next.kind = .symbol .colon
    · rw [if_neg (not_not_intro hnext),
        if_neg (not_not_intro ((bare_eq_iff (by simp)).2 hnext))]
      refine (name_reads_advance h.ne_nil hk).bind ?_
      rintro key _ rfl
      refine (take_reads (advanced.at.mono (Nat.le_succ n)) ?_).bind fun _ _ hd ↦ reads_pure rfl hd
      rw [Cursor.current_advance h.ne_nil, hnext]
      rfl
    · rw [if_pos hnext, if_pos (mt (bare_eq_iff (by simp)).1 hnext)]
      refine cursor_reads (throw_reads h.toStands ?_)
      rw [Cursor.current_within h.ne_nil]
      rfl
  | _ => exact reads_pure rfl h

private theorem modifierValue_reads (h : c.Live L n) :
    Reads e L c (fun _ d ↦ d.Live L n) modifierValue modifierValue := by
  have h' := h.mono (Nat.le_succ n)
  refine peek_reads h.ne_nil ?_
  cases hk : c.current.kind with
  | string literal => exact (string_reads h').map fun _ ↦ rfl
  | number digits =>
    exact (take_reads h'.at (by rw [hk]; rfl)).bind fun _ _ hd ↦ reads_pure rfl hd
  | identifier word =>
    refine cursor_reads (throw_reads h.toStands ?_)
    rw [Cursor.current_within h.ne_nil]
    rfl
  | _ => exact unexpected_reads h.toStands

private theorem modifiers_reads (h : c.At L n) :
    Reads e L c (fun _ d ↦ d.Live L n) modifiers modifiers := by
  refine (symbol_reads (h.mono (Nat.le_succ n)) (.inr rfl)).bind fun _ d hd ↦
    commaList_reads hd rfl ?_
  intro c hc
  refine cursor_reads ?_
  refine (modifierKey?_reads hc).bind fun key d hd ↦ ?_
  refine (modifierValue_reads hd).bind fun value a ha ↦ ?_
  rw [Cursor.current_within hc.ne_nil, span_recast]
  exact spanFrom_reads (reads_pure rfl ha.at)

/-- Modifiers are read the same. -/
theorem modifiers?_reads (h : c.At L n) :
    Reads e L c (fun _ d ↦ d.At L n) modifiers? modifiers? :=
  atSymbol_reads h rfl (reads_pure rfl h) fun h ↦ (modifiers_reads h.at).mono fun _ _ _ hd ↦ hd.at

private theorem contextNames_reads {close : Punctuation} {make : List Ident → Context}
    (h : c.Live L n)
    (hp : c.current.kind.isPlain = true) (hclose : (TokenKind.symbol close).continues = true)
    (hmake : ∀ names, make (recast .bare names) = recast .bare (make names)) :
    Reads e L c (fun _ d ↦ d.Live L n) (contextNames close make) (contextNames close make) := by
  refine (take_reads (h.at.mono (Nat.le_succ n)) hp).bind fun _ d hd ↦ ?_
  refine (commaList_reads hd hclose fun a ha ↦
    (name_reads (ha.mono (Nat.le_succ n))).mono fun _ _ _ h ↦ h.at).bind fun names a ha ↦ ?_
  refine reads_pure ?_ ha
  cases names with
  | nil => rfl
  | cons name names => exact hmake (name :: names)

private theorem context_reads (h : c.Live L n) :
    Reads e L c (fun _ d ↦ d.Live L n) context context := by
  refine peek_reads h.ne_nil ?_
  cases hk : c.current.kind with
  | identifier text => exact (name_reads (h.mono (Nat.le_succ n))).map fun _ ↦ rfl
  | symbol mark =>
    have plain : c.current.kind.isPlain = true := by rw [hk]; rfl
    cases mark with
    | leftBracket => exact contextNames_reads h plain rfl fun _ ↦ rfl
    | leftBrace => exact contextNames_reads h plain rfl fun _ ↦ rfl
    | _ => exact unexpected_reads h.toStands
  | _ => exact unexpected_reads h.toStands

private theorem propertyKey_reads (h : c.Live L (n + 1)) :
    Reads e L c (fun _ d ↦ d.Live L n) propertyKey propertyKey := by
  refine peek_reads h.ne_nil ?_
  cases hk : c.current.kind with
  | keyword word =>
    have plain : c.current.kind.isPlain = true := by rw [hk]; rfl
    refine peekNext_reads (tail_ne_nil h.at plain) ?_
    by_cases hnext : c.next.kind = .symbol .colon
    · rw [if_pos hnext, if_pos ((bare_eq_iff (by simp)).2 hnext)]
      exact (take_reads h.at plain).bind fun _ _ hd ↦ reads_pure rfl hd
    · rw [if_neg hnext, if_neg (mt (bare_eq_iff (by simp)).1 hnext)]
      exact name_reads h
  | _ => exact name_reads h

private theorem property_reads (hg : Agrees e n g g') (pipes : Bool) (h : c.Live L (n + 1)) :
    Reads e L c (fun _ d ↦ d.At L n) (property g pipes) (property g' pipes) := by
  refine (propertyKey_reads h).bind fun key d hd ↦ ?_
  refine (symbol_reads (hd.at.mono (Nat.le_succ n)) (.inr rfl)).bind fun _ d hd ↦ ?_
  refine cursor_reads ?_
  rw [Cursor.atBlock_within hd.toStands, val_recast]
  split
  · refine ((context_reads hd).map fun _ ↦ by rfl).bind fun _ _ ha ↦ ?_
    exact spanFrom_reads (reads_pure rfl ha.at)
  split
  · next hb =>
    refine ((hg.properties pipes hd.at hb).map fun ps ↦
      (recast_property_nested _ ps).symm).bind fun _ _ ha ↦ ?_
    exact spanFrom_reads (reads_pure rfl ha)
  · refine ((hg.value pipes hd).map fun _ ↦ by rfl).bind fun _ _ ha ↦ ?_
    exact spanFrom_reads (reads_pure rfl ha)

/-- What a round of reading properties does, by the token behind ends of lines and comments. -/
theorem propertyRound_apply (g : Nested) (pipes : Bool) (c : Cursor) :
    propertyRound g pipes c =
      match c.skipNewlines.skipComments.current.kind with
      | .dedent | .endOfFile => (([], .stop), c.skipNewlines.skipComments)
      | _ =>
        match recovering (property g pipes) c.skipNewlines.skipComments with
        | (some p, d) => (([p], .again), (recovering endStatement d).2)
        | (none, d) => (([], .again), d) := by
  have run : propertyRound g pipes c = _ :=
    (state_bind (p := modify fun c ↦ c.skipNewlines.skipComments) rfl).trans
      (state_bind (p := get) rfl)
  rw [run]
  dsimp only
  cases c.skipNewlines.skipComments.current.kind with
  | dedent | endOfFile => rfl
  | _ =>
    rcases h : recovering (property g pipes) c.skipNewlines.skipComments with ⟨_ | p, a⟩ <;>
      exact (state_bind h).trans rfl

private theorem propertyRound_reads (hg : Agrees e n g g') (pipes : Bool) (h : c.Stands (L + 1))
    (hn : c.rest.length ≤ n) :
    ReadsRound e (L + 1) c (fun d ↦ d.Stands (L + 1) ∧ d.rest.length ≤ n)
      (fun d ↦ d.Stands (L + 1) ∧ d.rest.length ≤ n ∧ d.current.kind = .dedent)
      (propertyRound g pipes) (propertyRound g' pipes) := by
  have skips : c.Follows c.skipNewlines.skipComments :=
    (Cursor.Follows.skip c _).trans (.skip c.skipNewlines _)
  have live := h.skipNewlines.live_skipComments (Nat.le_refl _) h.skipNewlines.not_onlyComments
  have hn' := Nat.le_trans skips.length_le hn
  have round := propertyRound_apply g pipes c
  have round' := propertyRound_apply g' pipes (c.within e)
  rw [Cursor.skipNewlines_within, Cursor.skipComments_within h.skipNewlines.not_onlyComments,
    Cursor.current_within live.ne_nil, kind_recast] at round'
  generalize c.skipNewlines.skipComments = d at *
  obtain ⟨t, ts, ht⟩ := List.exists_cons_of_ne_nil live.ne_nil
  have htk : d.current.kind = t.kind := by simp [Cursor.current, ht]
  have hlen : d.rest.length = ts.length + 1 := by rw [ht]; rfl
  cases hk : d.current.kind with
  | dedent =>
    rw [hk] at round round'
    exact ⟨round, round', skips, .stop ⟨live.toStands, hn', hk⟩⟩
  | endOfFile =>
    have laid := live.laid
    rw [ht] at laid
    exact absurd (htk.symm.trans hk) laid.1
  | _ =>
    have reads := property_reads (hg.mono (by omega : ts.length ≤ n)) pipes
      { live with length_le := Nat.le_of_eq hlen }
    obtain @⟨x, _, a, here, there, follows, rfl, stands, known, progress⟩ :=
      recovering_runs_in_block reads (fun _ _ ha ↦ ha.toStands) ht (by simp [← htk, hk])
    rw [hk, here] at round
    rw [hk, there] at round'
    have := skips.length_le
    cases x with
    | none =>
      have shorter : a.rest.length < c.rest.length := by
        have := progress rfl
        omega
      exact ⟨round, round', skips.trans follows,
        .again ⟨stands, Nat.le_trans (Nat.le_of_lt shorter) hn⟩ (.inl shorter)⟩
    | some p =>
      have hp := known p rfl
      have := hp.length_le
      obtain @⟨_, _, b, ended, ended', follows', -, stands'⟩ :=
        endStatement_runs (e := e) hp (follows.previous (.inr (by omega)))
      have shorter : b.rest.length < c.rest.length := by
        have := follows'.length_le
        omega
      dsimp only [recast_some] at round round'
      rw [ended] at round
      rw [ended'] at round'
      exact ⟨round, round', skips.trans (follows.trans follows'),
        .again ⟨stands', Nat.le_trans (Nat.le_of_lt shorter) hn⟩ (.inl shorter)⟩

private theorem properties_runs (hg : Agrees e n g g') (pipes : Bool) (h : c.Stands (L + 1))
    (hn : c.rest.length ≤ n) :
    Runs e c (fun _ d ↦ d.Stands (L + 1) ∧ d.rest.length ≤ n ∧ d.current.kind = .dedent)
      (fun c ↦ ((rounds (propertyRound g pipes) c).1.1, (rounds (propertyRound g pipes) c).2))
      (fun c ↦ ((rounds (propertyRound g' pipes) c).1.1,
        (rounds (propertyRound g' pipes) c).2)) := by
  refine rounds_runs (L := L + 1) (I := fun d ↦ d.Stands (L + 1) ∧ d.rest.length ≤ n) ⟨h, hn⟩
    (fun d ⟨hd, hdn⟩ ↦ propertyRound_reads hg pipes hd hdn) fun d f ↦ ?_
  rw [propertyRound_apply]
  split <;> try split
  all_goals simp

/-- A block of properties is read the same. -/
theorem propertyBlock_reads (hg : Agrees e n g g') (pipes : Bool) (h : c.At L (n + 1))
    (hb : c.atBlock = true) :
    Reads e L c (fun _ d ↦ d.At L (n + 1)) (propertyBlock g pipes) (propertyBlock g' pipes) := by
  obtain ⟨t, u, hc, ht, hu⟩ := rest_of_atBlock h.toStands hb
  obtain ⟨hne, hne'⟩ := ne_nil_of_atBlock h.toStands hb
  have hlen := h.length_le
  rw [hc] at hlen
  simp only [List.length_cons] at hlen
  refine (expect_reads_of_current hne (by simp [Cursor.current, hc, ht]) (by simp)).bind ?_
  rintro _ _ rfl
  refine (expect_reads_of_current hne' ?_ (by simp)).bind ?_
  · rw [Cursor.current_advance hne]
    simp [Cursor.next, hc, hu]
  rintro _ _ rfl
  have runs := properties_runs hg pipes (stands_in_block h.toStands hb) (by omega)
  refine Reads.bind ((runs_reads (L := L) runs).congr rfl rfl) ?_
  rintro properties d ⟨hd, hn, hk⟩
  refine (dedent_reads hd (Nat.le_succ_of_le hn) hk).bind fun _ _ ha ↦ reads_pure rfl ha

private theorem inlineProperties_reads (hg : Agrees e n g g') (pipes : Bool)
    (h : c.Live L (n + 1)) :
    Reads e L c (fun _ d ↦ d.At L n) (inlineProperties g pipes) (inlineProperties g' pipes) := by
  refine (symbol_reads h.at (.inl h.starts)).bind fun _ d hd ↦ ?_
  exact (commaList_reads hd rfl fun a ha ↦
    property_reads hg pipes (ha.mono (Nat.le_succ n))).mono fun _ _ _ ha ↦ ha.at

/-- What follows the colon of a session if nothing else does. -/
theorem detailsBlock_reads (hg : Agrees e n g g') (pipes : Bool) (s : Session) (h : c.At L n)
    (hb : c.atBlock = true) :
    Reads e L c (fun _ d ↦ d.At L n)
      (do s.withProperties (← propertyBlock g pipes))
      (do (recast .bare s).withProperties (← propertyBlock g' pipes)) := by
  refine ((propertyBlock_reads hg pipes (h.mono (Nat.le_succ n)) hb).bounded h.length_le).bind
    fun ps d hd ↦ ?_
  exact lift_reads hd.toStands (SessionOf.withProperties_recast .bare s ps) fun _ _ ↦ hd

private theorem sessionDetails_reads (hg : Agrees e n g g') (pipes : Bool) (s : Session)
    (h : c.Live L n) : Reads e L c (fun _ d ↦ d.At L n) (sessionDetails g pipes s)
      (sessionDetails g' pipes (recast .bare s)) := by
  have h' := h.mono (Nat.le_succ n)
  have onlyBlock : Reads e L c (fun _ d ↦ d.At L n)
      (do if (← cursor).atBlock then s.withProperties (← propertyBlock g pipes)
          else missingBlock .session)
      (do if (← cursor).atBlock then (recast .bare s).withProperties (← propertyBlock g' pipes)
          else missingBlock .session) := by
    refine cursor_reads ?_
    rw [Cursor.atBlock_within h.toStands]
    split
    · next hb => exact detailsBlock_reads hg pipes s h.at hb
    · exact missingBlock_reads h.toStands
  refine peek_reads h.ne_nil ?_
  cases hk : c.current.kind with
  | identifier text =>
    refine (name_reads h').bind fun name d hd ↦ cursor_reads ?_
    rw [Cursor.atBlock_within hd.toStands]
    split
    · next hb => exact detailsBlock_reads hg pipes { s with agent := some name } hd.at hb
    · exact reads_pure rfl hd.at
  | symbol mark =>
    cases mark with
    | leftBrace =>
      refine (inlineProperties_reads hg pipes h').bind fun ps d hd ↦ ?_
      exact lift_reads hd.toStands (SessionOf.withProperties_recast .bare s ps) fun _ _ ↦ hd
    | _ => exact onlyBlock
  | _ => exact onlyBlock

/-- What follows the prompt of a session. -/
private def sessionAfterPrompt (g : Nested) (pipes : Bool) (first : Span) (name : Option Ident)
    (prompt : Option StringLit) : Parser Session := do
  let s ← SessionOf.withModifiers { name, prompt } (← modifiers?)
  let s ← if ← symbol? .colon then sessionDetails g pipes s else pure s
  return { s with span := ← spanFrom first }

/-- What follows the name of a session. -/
private def sessionAfterName (g : Nested) (pipes : Bool) (first : Span) (name : Option Ident) :
    Parser Session := do
  let prompt ← match ← peek with
    | .string _ => some <$> string "a prompt"
    | _ => pure none
  sessionAfterPrompt g pipes first name prompt

private theorem sessionAfterPrompt_reads (hg : Agrees e n g g') (pipes : Bool) (first : Span)
    (name : Option Ident) (prompt : Option StringLit) (h : c.Live L n) :
    Reads e L c (fun _ d ↦ d.At L n) (sessionAfterPrompt g pipes first name prompt)
      (sessionAfterPrompt g' pipes .nowhere (recast .bare name) (recast .bare prompt)) := by
  refine (modifiers?_reads h.at).bind fun ms d hd ↦ ?_
  refine Reads.bind (R := fun _ d ↦ d.At L n) (lift_reads hd.toStands
    (SessionOf.withModifiers_recast .bare { name, prompt } ms) fun _ _ ↦ hd) fun s d hd ↦ ?_
  refine (symbol?_reads (hd.mono (Nat.le_succ n)) rfl).bind fun b a ⟨_, hnone, hlive⟩ ↦ ?_
  cases b with
  | true =>
    refine (sessionDetails_reads hg pipes s (hlive rfl)).bind fun s a ha ↦ ?_
    exact spanFrom_reads (reads_pure rfl ha)
  | false =>
    obtain rfl := hnone rfl
    refine Reads.bind (R := fun _ d ↦ d.At L n) (reads_pure (x := s) rfl hd) fun s a ha ↦ ?_
    exact spanFrom_reads (reads_pure rfl ha)

private theorem sessionAfterName_reads (hg : Agrees e n g g') (pipes : Bool) (first : Span)
    (name : Option Ident) (h : c.Live L n) :
    Reads e L c (fun _ d ↦ d.At L n) (sessionAfterName g pipes first name)
      (sessionAfterName g' pipes .nowhere (recast .bare name)) := by
  refine peek_reads h.ne_nil ?_
  cases hk : c.current.kind with
  | string literal =>
    refine Reads.bind (R := fun _ d ↦ d.Live L n)
      ((string_reads (h.mono (Nat.le_succ n))).map fun _ ↦ by rfl) fun prompt d hd ↦ ?_
    exact sessionAfterPrompt_reads hg pipes first name prompt hd
  | _ => exact sessionAfterPrompt_reads hg pipes first name none h

/-- A session is read the same. -/
theorem session_reads (hg : Agrees e n g g') (pipes : Bool) (h : c.Live L (n + 1)) :
    Reads e L c (fun _ d ↦ d.At L n) (session g pipes) (session g' pipes) := by
  refine (keyword_reads h).bind fun first d hd ↦ ?_
  refine peek_reads hd.ne_nil ?_
  cases hk : d.current.kind with
  | identifier text =>
    refine Reads.bind (R := fun _ d ↦ d.Live L n)
      ((name_reads (hd.mono (Nat.le_succ n))).map fun _ ↦ by rfl) fun name a ha ↦ ?_
    exact sessionAfterName_reads hg pipes first name ha
  | _ => exact sessionAfterName_reads hg pipes first none hd

/-- The definition of an agent is read the same. -/
theorem agent_reads (hg : Agrees e n g g') (pipes : Bool) (h : c.Live L (n + 1)) :
    Reads e L c (fun _ d ↦ d.At L n) (agent g pipes) (agent g' pipes) := by
  refine (keyword_reads h).bind fun first d hd ↦ ?_
  refine (name_reads (hd.mono (Nat.le_succ n))).bind fun name d hd ↦ ?_
  refine (symbol_reads (hd.at.mono (Nat.le_succ n)) (.inr rfl)).bind fun _ d hd ↦ cursor_reads ?_
  rw [Cursor.atBlock_within hd.toStands]
  cases hb : d.atBlock with
  | false =>
    exact (missingBlock_reads (R := fun (_ : Unit) _ ↦ False) hd.toStands).bind fun _ _ ↦ False.elim
  | true =>
    refine ((propertyBlock_reads hg pipes (hd.at.mono (Nat.le_succ n)) hb).bounded
      hd.length_le).bind fun ps a ha ↦ ?_
    let empty : Agent :=
      { name, model := none, prompt := none, skills := [], permissions := none, properties := [],
        keys := [], span := first }
    refine Reads.bind (R := fun _ d ↦ d.At L n) (lift_reads ha.toStands
      (AgentOf.withProperties_recast .bare empty ps) fun _ _ ↦ ha) fun a d hd ↦ ?_
    exact spanFrom_reads (reads_pure rfl hd)

end Parser

end ProseLang
