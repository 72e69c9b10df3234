import ProseLang.Proofs.Grammar.Source
import ProseLang.Proofs.Token.Partition

/-!
# Where comments stand

A comment on a line of its own is held back until the line after it has opened or closed its blocks,
so what comes next is a token of that line (`lead_tokensOf`). It is a bar only where no line came
before, since a line that starts with a bar continues the one before.
-/

namespace ProseLang

/-- Whether comments on lines of their own stand before tokens that are no layout, and before a bar
only if nothing came before; `previous` is the last token that is no comment, and `begun` says
whether one of those was no layout. -/
def CommentsLead : Option TokenKind → Bool → List Token → Prop
  | _, _, [] => True
  | previous, begun, t :: rest =>
    if t.kind.isComment then
      (previous.all TokenKind.beforeOwnLine = true → ∀ u ∈ rest.head?, u.kind.isLayout = false
        ∧ (begun = true → u.kind ≠ .symbol .pipe)) ∧ CommentsLead previous begun rest
    else CommentsLead (some t.kind) (begun || !t.kind.isLayout) rest

section

variable {previous : Option TokenKind} {begun : Bool} {ts held : List Token} {t : Token}

private theorem commentsLead_cons (h : t.kind.isComment = false) :
    CommentsLead previous begun (t :: ts)
      ↔ CommentsLead (some t.kind) (begun || !t.kind.isLayout) ts := by
  rw [CommentsLead, if_neg (by simp [h])]

/-- Layout tokens begin nothing. -/
theorem commentsLead_cons_of_layout (h : t.kind.isLayout = true) :
    CommentsLead previous begun (t :: ts) ↔ CommentsLead (some t.kind) begun ts := by
  have plain : t.kind.isComment = false := by
    generalize t.kind = kind at h
    cases kind <;> first | rfl | cases h
  rw [commentsLead_cons plain, h]
  simp

/-- After a token of a line, comments stand anywhere. -/
theorem commentsLead_append_of_line (hheld : onlyComments held = true)
    (hline : previous.all TokenKind.beforeOwnLine = false) (h : CommentsLead previous begun ts) :
    CommentsLead previous begun (held ++ ts) := by
  induction held with
  | nil => exact h
  | cons c held ih =>
    obtain ⟨comment, rest⟩ := Bool.and_eq_true_iff.1 ((onlyComments_cons c held).symm.trans hheld)
    rw [List.cons_append, CommentsLead, if_pos comment, hline]
    exact ⟨nofun, ih rest⟩

/-- Comments may stand before a token of their line. -/
theorem commentsLead_append (hheld : onlyComments held = true)
    (hlead : ∀ u ∈ ts.head?, u.kind.isLayout = false ∧ (begun = true → u.kind ≠ .symbol .pipe))
    (h : CommentsLead previous begun ts) : CommentsLead previous begun (held ++ ts) := by
  induction held with
  | nil => exact h
  | cons c held ih =>
    obtain ⟨comment, rest⟩ := Bool.and_eq_true_iff.1 ((onlyComments_cons c held).symm.trans hheld)
    rw [List.cons_append, CommentsLead, if_pos comment]
    refine ⟨fun _ u hu ↦ ?_, ih rest⟩
    cases held with
    | nil => exact hlead u hu
    | cons d held =>
      obtain rfl : d = u := by simpa using hu
      have plain := (Bool.and_eq_true_iff.1 ((onlyComments_cons d held).symm.trans rest)).1
      cases hk : d.kind <;> rw [hk] at plain <;> cases plain
      exact ⟨rfl, nofun⟩

/-- Layout before a line leaves what has begun. -/
theorem commentsLead_layout_append {before : List Token}
    (hbefore : ∀ t ∈ before, t.kind.isLayout = true)
    (h : ∀ previous, CommentsLead previous begun ts) :
    CommentsLead previous begun (before ++ ts) := by
  induction before generalizing previous with
  | nil => exact h previous
  | cons t before ih =>
    obtain ⟨first, rest⟩ := List.forall_mem_cons.1 hbefore
    rw [List.cons_append, commentsLead_cons_of_layout first]
    exact ih rest

end

namespace Layout

/-- What a layout knows of the tokens that it has given. -/
structure Leads (s : Layout) (previous : Option TokenKind) (begun : Bool) : Prop where
  /-- A line that has begun, or has just ended, has a token. -/
  line : s.hasContent = true ∨ s.pending.isSome = true →
    previous.all TokenKind.beforeOwnLine = false ∧ begun = true
  /-- Before the first line there is no token. -/
  first : s.hasContent = false → s.pending = none → begun = false
  /-- Brackets are open only within a line. -/
  bracket : 0 < s.depth → s.hasContent = true
  held : onlyComments s.held = true

variable {s : Layout} {previous : Option TokenKind} {begun : Bool} {l : LexemeAt}

/-- A line starts with the comments that wait for it, and then its first token. -/
theorem Leads.startLine (h : s.Leads previous begun) {k : TokenKind} (hk : k.isPlain = true)
    (hstart : s.hasContent = false) (span : Span) {ts : List Token}
    (hts : CommentsLead (some k) true ts) :
    CommentsLead previous begun
      ((s.startLine (k = .symbol .pipe) span.start).2.tokens ++ ⟨k, span⟩ :: ts) := by
  have facts : k.isComment = false ∧ k.isLayout = false := by
    cases k <;> first | exact ⟨rfl, rfl⟩ | cases hk
  have ahead (previous : Option TokenKind) : CommentsLead previous begun (⟨k, span⟩ :: ts) := by
    rw [commentsLead_cons facts.1]
    simpa [facts.2] using hts
  have layout (n : Nat) (p : Position) : ∀ t ∈ dedents n p, t.kind.isLayout = true := fun t ht ↦ by
    rw [List.eq_of_mem_replicate ht]
    rfl
  have ended : ∀ t ∈ s.ended, t.kind.isLayout = true := fun t ht ↦ by
    obtain ⟨span, -, rfl⟩ := List.mem_map.1 ht
    rfl
  have waiting (notBar : k = .symbol .pipe → s.pending = none) (previous : Option TokenKind) :
      CommentsLead previous begun (s.held ++ ⟨k, span⟩ :: ts) := by
    refine commentsLead_append h.held (fun u hu ↦ ?_) (ahead previous)
    obtain rfl : Token.mk k span = u := by simpa using hu
    refine ⟨facts.2, fun hbegun bar ↦ ?_⟩
    rw [h.first hstart (notBar bar)] at hbegun
    cases hbegun
  simp only [Layout.startLine]
  generalize (if s.leadTab?.isSome = true then s.width else s.lead.length) = width
  split
  · next bar =>
    obtain ⟨-, pending⟩ := Bool.and_eq_true_iff.1 bar
    rw [List.append_assoc]
    exact commentsLead_append_of_line h.held (h.line (.inr pending)).1
      (commentsLead_layout_append (layout _ _) ahead)
  · next other =>
    have notBar (bar : k = .symbol .pipe) : s.pending = none := by
      simpa [bar] using other
    split
    · rw [List.append_assoc]
      refine commentsLead_layout_append ended fun previous ↦ ?_
      rw [List.cons_append, commentsLead_cons_of_layout rfl]
      exact waiting notBar _
    · rw [List.append_assoc, List.append_assoc]
      exact commentsLead_layout_append ended fun previous ↦
        commentsLead_layout_append (layout _ _) (waiting notBar)

/-- A token comes after the comments that wait for its line. -/
theorem Leads.token (h : s.Leads previous begun) {k : TokenKind} (hk : k.isPlain = true)
    (span : Span) : (∀ ts, CommentsLead (some k) true ts →
      CommentsLead previous begun ((s.token k span).2.tokens ++ ts))
      ∧ (s.token k span).1.Leads (some k) true := by
  have facts : k.isComment = false ∧ k.isLayout = false ∧ k.beforeOwnLine = false := by
    cases k <;> first | exact ⟨rfl, rfl, rfl⟩ | cases hk
  obtain ⟨depth, after⟩ := s.token_fst k span
  have held : onlyComments (s.token k span).1.held = true := by
    rw [after]
    split
    · rcases s.startLine_cases (k = .symbol .pipe) span.start with
        ⟨_, _, -, next, -⟩ | ⟨_, _, -, -, next, -⟩ <;> rw [next] <;> rfl
    · exact h.held
  refine ⟨fun ts hts ↦ ?_, fun _ ↦ ⟨facts.2.2, rfl⟩, ?_, ?_, held⟩
  · rw [token_snd, List.append_assoc, List.singleton_append]
    split
    · next starts =>
      exact h.startLine hk (by simpa using (Bool.and_eq_true_iff.1 starts).2) span hts
    · rw [List.nil_append, commentsLead_cons facts.1]
      simpa [facts.2.1] using hts
  · rw [after]
    exact nofun
  · rw [after]
    exact fun _ ↦ rfl

/-- What a lexeme gives keeps to where comments stand. -/
theorem Leads.step (h : s.Leads previous begun) : ∃ previous' begun',
    (∀ ts, CommentsLead previous' begun' ts →
      CommentsLead previous begun ((s.step l).2.tokens ++ ts))
      ∧ (s.step l).1.Leads previous' begun' := by
  cases hk : l.kind? with
  | some k =>
    obtain ⟨tokens, after⟩ := h.token (LexemeAt.isPlain_of_kind? hk) l.span
    rw [step_of_kind? hk]
    exact ⟨_, _, tokens, after⟩
  | none =>
    rcases LexemeAt.lexeme_of_kind?_none hk with hl | hl | hl
    · rw [step_of_blank hl]
      exact ⟨previous, begun, fun _ ↦ id, h.line, h.first, h.bracket, h.held⟩
    · rw [step_of_lineBreak hl]
      refine ⟨previous, begun, fun _ ↦ id, ?_⟩
      simp only [lineBreak]
      split
      · exact ⟨h.line, h.first, h.bracket, h.held⟩
      · next ends =>
        obtain ⟨outside, content⟩ : s.depth = 0 ∧ s.hasContent = true := by simpa using ends
        refine ⟨fun _ ↦ h.line (.inl content), by rintro - ⟨⟩, fun inside ↦ ?_, h.held⟩
        change 0 < s.depth at inside
        omega
    · rw [step_of_comment hl]
      simp only [comment]
      split
      · next within =>
        have content : s.hasContent = true := by
          simp only [Bool.or_eq_true, decide_eq_true_eq] at within
          exact within.elim id h.bracket
        refine ⟨previous, begun, fun ts hts ↦ ?_, h⟩
        have alone (text : String) : onlyComments [⟨.comment text, l.span⟩] = true := rfl
        exact commentsLead_append_of_line (alone _) (h.line (.inl content)).1 hts
      · refine ⟨previous, begun, fun _ ↦ id, h.line, h.first, h.bracket, ?_⟩
        rw [onlyComments_append, h.held]
        rfl

/-- The end of a text keeps to where comments stand. -/
theorem Leads.closing (h : s.Leads previous begun) (p : Position) :
    CommentsLead previous begun (s.closing p) := by
  have held (previous : Option TokenKind) : CommentsLead previous begun s.held := by
    have whole : CommentsLead previous begun (s.held ++ []) :=
      commentsLead_append h.held nofun trivial
    rwa [List.append_nil] at whole
  have blocks : ∀ t ∈ dedents s.indents.length p, t.kind.isLayout = true := fun t ht ↦ by
    rw [List.eq_of_mem_replicate ht]
    rfl
  rw [Layout.closing, List.append_assoc]
  refine commentsLead_layout_append (fun t ht ↦ ?_) fun _ ↦ commentsLead_layout_append blocks held
  split at ht
  · obtain rfl := List.mem_singleton.1 ht
    rfl
  · split at ht
    · obtain rfl := List.mem_singleton.1 ht
      rfl
    · cases ht

end Layout

private theorem leads_runLayout {s : Layout} {previous : Option TokenKind} {begun : Bool}
    (ls : List LexemeAt) (h : s.Leads previous begun) : ∃ previous' begun',
      (∀ ts, CommentsLead previous' begun' ts →
        CommentsLead previous begun ((runLayout s ls).2.tokens ++ ts))
        ∧ (runLayout s ls).1.Leads previous' begun' := by
  induction ls generalizing s previous begun with
  | nil => exact ⟨previous, begun, fun _ ↦ id, h⟩
  | cons l ls ih =>
    obtain ⟨_, _, here, leads⟩ := h.step (l := l)
    obtain ⟨previous', begun', rest, leads'⟩ := ih leads
    refine ⟨previous', begun', fun ts hts ↦ ?_, leads'⟩
    simp only [runLayout, Tokenized.tokens_append, List.append_assoc]
    exact here _ (rest ts hts)

/-- The comments of every text lead what follows them. -/
theorem lead_tokensOf (text : List Char) : CommentsLead none false (tokensOf text) := by
  have start : ({} : Layout).Leads none false := ⟨by simp, fun _ _ ↦ rfl, by simp, rfl⟩
  obtain ⟨_, _, tokens, leads⟩ := leads_runLayout (lexemes .start text) start
  exact tokens _ (leads.closing _)

end ProseLang
