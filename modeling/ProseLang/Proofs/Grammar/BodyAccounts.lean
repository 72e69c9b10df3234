import ProseLang.Proofs.Grammar.Openings
import ProseLang.Proofs.Grammar.SessionAccounts

/-!
# What bodies are made from

No statement of a body is lost, and a block has code: where it opens something comes that is not
blank, and whatever is not blank is read as a statement or leaves an error
(`indentedBody_accounts`).
-/

namespace ProseLang

variable {clean : Prop} {ts : List Token} {c : Cursor} {g : Nested}

/-- Whether tokens are ends of lines and comments. -/
def onlyBlanks (ts : List Token) : Bool := ts.all fun t ↦ t.kind = .newline || t.kind.isComment

/-- Whether the statements of a body are made from some tokens: in a block they have code, unless
the tokens are blank. -/
structure Gathered (clean : Prop) (ts : List Token) (inBlock : Bool) (taken : List Token)
    (body : List Statement) : Prop where
  made : Made clean ts (bodyVisits everywhere body) (hosts taken)
  code : clean → inBlock = true → hasCode body = true ∨ onlyBlanks taken = true

namespace Gathered

variable {inBlock : Bool} {taken later : List Token} {body more : List Statement}

private theorem append (h : Gathered clean ts inBlock taken body)
    (h' : Gathered clean ts inBlock later more) :
    Gathered clean ts inBlock (taken ++ later) (body ++ more) where
  made := by
    rw [bodyVisits_append, hosts_append]
    exact h.made.append h'.made
  code c b := by
    rw [hasCode_append, onlyBlanks, List.all_append, Bool.or_eq_true, Bool.and_eq_true]
    have := h.code c b
    have := h'.code c b
    grind [onlyBlanks]

private theorem of_newlines (h : ∀ t ∈ taken, t.kind = .newline) :
    Gathered clean ts inBlock taken [] where
  made := by
    rw [hosts_eq_nil fun t ht ↦ by rw [h t ht]; rfl]
    exact .nil
  code _ _ := .inr (List.all_eq_true.2 fun t ht ↦ by rw [h t ht]; rfl)

private theorem of_skipNewlines (h : c.rest = taken ++ c.skipNewlines.rest) :
    Gathered clean ts inBlock taken [] :=
  of_newlines fun t ht ↦ of_decide_eq_true (Cursor.forall_mem_of_skip h t ht)

private theorem of_supplied (h : Supplied clean ts taken body none) :
    Gathered clean ts inBlock taken body where
  made := h.made.weaken fun c ↦ ⟨c, rfl⟩
  code _ _ := by
    refine (h.code rfl).imp_right ?_
    rintro ⟨t, rfl, comment⟩
    simp [onlyBlanks, comment]

private theorem of_not (written : ∀ v ∈ bodyVisits everywhere body, v.IsWritten ts)
    (unclean : ¬ clean) : Gathered clean ts inBlock taken body :=
  ⟨.of_not written unclean, fun c ↦ absurd c unclean⟩

end Gathered

/-- Where a block opens, something comes before its end that is not blank. -/
theorem onlyBlanks_of_find? {blanks later : List Token} {t : Token} (ht : t.kind = .dedent)
    (h : ∃ u ∈ (blanks ++ t :: later).find? (!·.kind.isComment), u.kind.isPlain = true) :
    onlyBlanks blanks = false := by
  rw [← Bool.not_eq_true]
  intro blank
  obtain ⟨u, hu, plain⟩ := h
  rw [List.find?_append, Option.mem_def, Option.or_eq_some_iff] at hu
  rcases hu with hu | ⟨-, hu⟩
  · have here := List.all_eq_true.1 blank u (List.mem_of_find?_eq_some hu)
    have code := List.find?_some hu
    generalize u.kind = kind at here code plain
    cases kind <;> simp_all [TokenKind.isPlain, TokenKind.isLayout]
  · rw [List.find?_cons_of_pos (by rw [ht]; rfl)] at hu
    rw [← Option.some.inj hu, ht] at plain
    cases plain

namespace Parser

private theorem statementRound_takes (inBlock : Bool) {statement : StatementParser}
    (h : StepTakes clean ts (fun taken r ↦ Supplied clean ts taken r.1 r.2) statement) :
    StepTakes clean ts (fun taken r ↦ Gathered clean ts inBlock taken r.1)
      (statementRound statement inBlock) := by
  refine .skip (fun c ↦ .skip c _) (.cursor fun c hc ↦ ?_)
  have stops (e : RoundEnd) : StepTakes clean ts (fun later (r : List Statement × RoundEnd) ↦
      ∀ (c : Cursor) taken, c.rest = taken ++ c.skipNewlines.rest →
        Gathered clean ts inBlock (taken ++ later) r.1) (pure ([], e)) :=
    .pure fun c taken rest ↦ by
      rw [List.append_nil]
      exact .of_skipNewlines rest
  dsimp only
  split
  · exact stops _ c hc
  · split
    · exact stops _ c hc
    · next hk outside =>
      refine .of_run (u := [c.current]) (d := c.advance) rfl (.advance c)
        (c.rest_eq_cons hc.final (by rw [hk]; nofun)) fun _ first taken rest ↦ ?_
      refine Gathered.append (.of_skipNewlines rest) ⟨?_, fun _ b ↦ ?_⟩
      · rw [hosts_singleton (by rw [hk]; rfl)]
        exact .nil
      · exact absurd b outside
  · exact .recover hc fun unclean later c taken _ ↦ .of_not nofun unclean
  · refine StepTakes.bind h (fun r ↦ ?_) c hc
    obtain ⟨read, error⟩ := r
    cases error with
    | some e =>
      dsimp only
      refine fun c hc ↦ .recover hc fun unclean later taken supplied first before rest ↦ ?_
      exact .of_not supplied.made.written unclean
    | none =>
      dsimp only
      refine .bind (recovering_takes endStatement_takes) fun ended ↦ .pure ?_
      rintro taken ⟨newlines, unclean⟩ own supplied first before rest
      rw [List.append_nil]
      cases ended with
      | none => exact .of_not supplied.made.written (unclean rfl)
      | some _ =>
        have here : Gathered clean ts inBlock own read := .of_supplied supplied
        have whole := here.append (.of_newlines (newlines _ rfl))
        rw [List.append_nil] at whole
        exact .append (.of_skipNewlines rest) whole

/-- The words in statements belong to their parts when those in each statement do. -/
theorem statements_takes (inBlock : Bool) {statement : StatementParser}
    (h : StepTakes clean ts (fun taken r ↦ Supplied clean ts taken r.1 r.2) statement) :
    StepTakes clean ts (Gathered clean ts inBlock) (statements statement inBlock) := by
  intro c hc
  obtain ⟨passes, gives⟩ := rounds_takes (P := fun _ taken xs ↦ Gathered clean ts inBlock taken xs)
    .append (statementRound_takes inBlock h) c hc
  exact ⟨passes, gives⟩

/-- What is at a cursor where a block opens. -/
theorem kinds_of_atBlock (hc : c.On clean ts) (hb : c.atBlock = true) :
    c.current.kind = .newline ∧ c.advance.current.kind = .indent := by
  rw [Cursor.atBlock, Bool.and_eq_true, decide_eq_true_eq, decide_eq_true_eq] at hb
  have ahead := c.rest_eq_cons hc.final (by simp [hb.1])
  exact ⟨hb.1, by rw [Cursor.current_advance (by simp [ahead])]; exact hb.2⟩

section Nested

variable (hg : g.Making clean ts) (laid : LaidOut ts)
include hg laid

/-- The words in an indented body belong to its parts. -/
theorem indentedBody_accounts (hc : c.On clean ts) (hb : c.atBlock = true) :
    AccountsAt clean c (FullBody clean ts) (indentedBody g) := by
  obtain ⟨newline, indent⟩ := kinds_of_atBlock hc hb
  have hnext := hc.passes (.advance c)
  have ahead : c.rest = c.current :: c.advance.current :: c.advance.advance.rest := by
    rw [c.rest_eq_cons hc.final (by rw [newline]; nofun),
      c.advance.rest_eq_cons hnext.final (by rw [indent]; nofun)]
  have opens := laid.opens.suffix hc.suffix
  rw [ahead] at opens
  refine TakesAt.take hc (by rw [newline]; nofun) (TakesAt.take hnext (by rw [indent]; nofun) ?_)
  have inside : Takes clean ts (fun taken body ↦ ∃ inner t, taken = inner ++ [t] ∧ t.kind = .dedent
      ∧ Gathered clean ts true inner body) (do
        let body ← statements (g.statement true) true
        let _ ← expect .dedent
        return body) := by
    refine Takes.bind (.of_step (statements_takes true (hg.statement true))) fun body ↦ ?_
    refine Takes.bind (expect_takes .dedent nofun) fun t ↦ .pure ?_
    rintro _ ⟨rfl, ht⟩ inner gathered
    exact ⟨inner, t, rfl, ht, gathered⟩
  refine TakesAt.imp_rest (inside _ (hnext.passes (.advance _))) ?_
  rintro _ body later rest ⟨inner, t, rfl, ht, gathered⟩
  refine ⟨?_, fun hclean ↦ List.forall_mem_singleton.2 ?_⟩
  · change Made clean ts _ (hosts ([c.current] ++ ([c.advance.current] ++ (inner ++ [t]))))
    rw [hosts_append, hosts_append, hosts_append, hosts_singleton (by rw [newline]; rfl),
      hosts_singleton (by rw [indent]; rfl), hosts_singleton (by rw [ht]; rfl), List.append_nil]
    exact gathered.made
  · refine (gathered.code hclean rfl).resolve_right ?_
    rw [Bool.not_eq_true]
    have code := opens.2.1 indent
    rw [rest, ← List.append_cons] at code
    exact onlyBlanks_of_find? ht code

/-- The words in a block belong to its parts. -/
theorem block_accounts (construct : Construct) :
    Accounts clean ts (FullBody clean ts) (block g construct) := by
  refine .skip (symbol_idle _) fun _ ↦ .cursor fun c hc ↦ ?_
  split
  · next hb => exact indentedBody_accounts hg laid hc hb
  · exact .of hc (.missingBlock _)

/-- A body that may be missing may also be empty. -/
theorem blockBody?_accounts :
    Accounts clean ts (fun words body ↦ Made clean ts (bodyVisits everywhere body) words)
      (blockBody? g) := by
  refine .cursor fun c hc ↦ ?_
  split
  · next hb =>
    exact StepTakesAt.imp (indentedBody_accounts hg laid hc hb) fun _ _ full x hx ↦ (full x hx).made
  · exact .of hc (.pure .nil)

end Nested

end Parser

end ProseLang
