import ProseLang.Proofs.Grammar.BodyAccounts

/-!
# What values are made from

Nothing is lost or left out where values are read (`primary_accounts`, `value_accounts`). A pipe has
an operation, and an operation has code in its body even on the line of its colon: a comment there
would stand on a line of its own (`operationBody_accounts`).
-/

namespace ProseLang.Parser

variable {clean : Prop} {ts : List Token} {c : Cursor} {g : Nested}

/-! ## Parts of pipes -/

/-- Only `reduce` names an accumulator, and then it names an item too. -/
theorem pipeNames_accounts (operator : PipeOperator) :
    Accounts clean ts (fun words names ↦ words = [] ∧
      (if operator = .reduce then names.2.isSome && names.1.isSome else names.2.isNone) = true)
      (pipeNames operator) := by
  rw [pipeNames]
  split
  · refine .skip (symbol_idle _) fun _ ↦ .skip (name_idle _) fun accumulator ↦ ?_
    refine .skip (symbol_idle _) fun _ ↦ .skip (name_idle _) fun item ↦ ?_
    exact .skip (symbol_idle _) fun _ ↦ .pure ⟨rfl, rfl⟩
  · refine .skip (symbol?_idle _) fun b ↦ ?_
    split
    · refine .skip (name_idle _) fun item ↦ .skip (symbol_idle _) fun _ ↦ .pure ⟨rfl, rfl⟩
    · exact .pure ⟨rfl, rfl⟩

/-- Where a pipe operation follows, a bar is at the cursor. -/
theorem atPipe_accounts {α : Type} {Q : List Token → α → Prop} (pipes : Bool) {k : Bool → Parser α}
    (none : Accounts clean ts Q (k false))
    (some : ∀ c, c.On clean ts → c.current.kind = .symbol .pipe → AccountsAt clean c Q (k true)) :
    Accounts clean ts Q (atPipe pipes >>= k) := by
  intro c hc
  change AccountsAt clean c Q (k (pipes && c.current.kind = .symbol .pipe))
  cases hb : pipes && decide (c.current.kind = .symbol .pipe) with
  | false => exact .of hc none
  | true => exact some c hc (of_decide_eq_true (Bool.and_eq_true _ _ ▸ hb).2)

/-- The body of a pipe operation, with the colon in front. -/
def operationBody (g : Nested) (operator : Located PipeOperator) (item accumulator : Option Ident)
    (first : Span) : Parser Operation := do
  symbol .colon
  let body ← if (← cursor).atBlock then indentedBody g else inlineBody g
  return { operator, item, accumulator, body, span := ← spanFrom first }

section Nested

variable (hg : g.Making clean ts)
include hg

/-- A body on the line of its colon has code unless it is a comment. -/
theorem inlineBody_takes :
    Takes clean ts (fun taken body ↦ Supplied clean ts taken body none) (inlineBody g) := by
  refine .peek fun c hc ↦ ?_
  split
  · exact Takes.missingBlock _ c hc
  · exact Takes.missingBlock _ c hc
  · exact Takes.missingBlock _ c hc
  · refine TakesAt.bind hc (Takes.of_step (hg.statement false) c hc) fun r ↦ ?_
    obtain ⟨read, error | e⟩ := r
    · refine .pure fun taken supplied ↦ ?_
      rwa [List.append_nil]
    · exact .throw e

/-- A value as one of several. -/
theorem item_accounts (pipes : Bool) :
    Accounts clean ts (fun words e ↦ Made clean ts (valueVisits everywhere [e]) words)
      (g.value pipes) :=
  (hg.value pipes).imp fun _ e made ↦ by rwa [valueVisits, valueVisits, List.append_nil]

private theorem objectEntry_accounts (pipes : Bool) :
    Accounts clean ts (fun words e ↦ Made clean ts (entryVisits everywhere [e]) words)
      (objectEntry g pipes) := by
  refine .skip (name_idle _) fun key ↦ .skip (symbol?_idle _) fun b ↦ ?_
  split
  · refine Accounts.bind
      (P := fun words value ↦ Made clean ts (entryVisits everywhere [⟨key, value⟩]) words)
      (.map (hg.value pipes) fun words value made ↦ ?_) fun value ↦ .pure fun words made ↦ ?_
    · rwa [entryVisits, entryVisits, List.append_nil]
    · rwa [List.append_nil]
  · exact .pure (.cons trivial (fun _ ↦ rfl) .nil)

variable (laid : LaidOut ts)
include laid

/-! ## Pipes -/

variable (operator : Located PipeOperator) (item accumulator : Option Ident) (first : Span)

private theorem operationBody_takes :
    Takes clean ts (fun taken o ↦ ∃ colon inside body span,
      taken = ⟨.symbol .colon, colon⟩ :: inside ∧ o = ⟨operator, item, accumulator, body, span⟩
        ∧ (FullBody clean ts (hosts inside) body ∨ Supplied clean ts inside body none))
      (operationBody g operator item accumulator first) := by
  refine Takes.bind (symbol_takes .colon) fun _ ↦ .cursor fun c hc ↦ ?_
  have close {p : Parser (List Statement)} (hp : TakesAt clean c (fun inside body ↦
      FullBody clean ts (hosts inside) body ∨ Supplied clean ts inside body none) p) :
      TakesAt clean c (fun later o ↦ ∀ taken : List Token,
        (∃ colon, taken = [⟨.symbol .colon, colon⟩]) → ∃ colon inside body span,
          taken ++ later = ⟨.symbol .colon, colon⟩ :: inside
            ∧ o = ⟨operator, item, accumulator, body, span⟩
            ∧ (FullBody clean ts (hosts inside) body ∨ Supplied clean ts inside body none)) (do
        let body ← p
        return ({ operator, item, accumulator, body, span := ← spanFrom first } : Operation)) := by
    refine TakesAt.bind hc hp fun body ↦ .spanFrom fun span ↦ .pure ?_
    rintro inside known _ ⟨colon, rfl⟩
    rw [List.append_nil]
    exact ⟨colon, inside, body, span, rfl, rfl, known⟩
  split
  · next hb =>
    exact close (StepTakesAt.imp (indentedBody_accounts hg laid hc hb)
      fun _ _ full x hx ↦ .inl (full x hx))
  · exact close (StepTakesAt.imp (inlineBody_takes hg c hc)
      fun _ _ supplied x hx ↦ .inr (supplied x hx))

/-- A comment right after the colon would stand on a line of its own, so there is code. -/
theorem operationBody_accounts :
    Accounts clean ts (fun words o ↦
      (if operator.val = .reduce then accumulator.isSome && item.isSome else
        accumulator.isNone) = true → Made clean ts (operationVisits everywhere [o]) words)
      (operationBody g operator item accumulator first) := by
  intro c hc
  refine TakesAt.imp_rest (operationBody_takes hg laid operator item accumulator first c hc) ?_
  rintro _ _ later rest ⟨colon, inside, body, span, rfl, rfl, read⟩ named
  have full : FullBody clean ts (hosts inside) body := by
    rcases read with full | supplied
    · exact full
    refine ⟨supplied.made.weaken fun hclean ↦ ⟨hclean, rfl⟩, fun _ ↦ List.forall_mem_singleton.2 ?_⟩
    refine (supplied.code rfl).resolve_right ?_
    rintro ⟨t, rfl, comment⟩
    have lines : OwnLines c.rest := laid.lines.suffix hc.suffix
    rw [rest] at lines
    exact absurd ((List.isChain_cons_cons.1 lines).1 comment) nofun
  rw [operationVisits, operationVisits, List.append_nil]
  exact full.part trivial fun _ ↦ named

private theorem pipeOperation_accounts :
    Accounts clean ts (fun words o ↦ Made clean ts (operationVisits everywhere [o]) words)
      (pipeOperation g) := by
  refine .skip (expect_idle _ nofun rfl) fun first ↦ .skip (name_idle _) fun name ↦ ?_
  split
  · next operator _ =>
    refine (pipeNames_accounts operator).bind fun names ↦ ?_
    have body := operationBody_accounts hg laid ⟨operator, name.span⟩ names.1 names.2 first.span
    refine body.imp fun later o made words ⟨idle, named⟩ ↦ ?_
    rw [idle, List.nil_append]
    exact made named
  · exact .throw _

/-- A bar is at the cursor, so there is an operation. -/
theorem pipeTail_accounts (hc : c.On clean ts) (hk : c.current.kind = .symbol .pipe) (input : Expr)
    (first : Span) :
    AccountsAt clean c (fun words p ↦ ∀ before, Made clean ts (input.visits everywhere) before →
      Made clean ts ((Expr.action (.pipe p)).visits everywhere) (before ++ words))
      (pipeTail g input first) := by
  have bar : atSymbol .pipe c = (.ok true, c) := by
    change (Except.ok (decide (c.current.kind = .symbol .pipe)), c) = _
    rw [hk, decide_eq_true rfl]
  have operations : Accounts clean ts
      (fun words os ↦ Made clean ts (operationVisits everywhere os) words)
      (manyWhile (atSymbol .pipe) (pipeOperation g)) :=
    manyWhile_accounts (.several operationVisits_append) .nil (atSymbol_idle _)
      (pipeOperation_accounts hg laid)
  have some : AccountsAt clean c (fun words os ↦ Made clean ts (operationVisits everywhere os) words
      ∧ os ≠ []) (manyWhile (atSymbol .pipe) (pipeOperation g)) := by
    refine ⟨(operations c hc).passes, fun record taken rest os read ↦ ?_⟩
    exact ⟨(operations c hc).gives record taken rest os read,
      manyWhile_ne_nil bar (Prod.ext read rfl)⟩
  refine some.bind hc fun os ↦ .spanFrom fun span ↦ .pure fun words ⟨made, ne⟩ before input ↦ ?_
  rw [List.append_nil]
  refine Full.part (.of_made (input.append made)) trivial fun _ ↦ ?_
  simpa [Visit.isFilled] using ne

/-! ## Values -/

variable (pipes : Bool)

/-- The words in a `do` belong to its parts. -/
theorem doAction_accounts :
    Accounts clean ts (fun words a ↦ Made clean ts ((Expr.action a).visits everywhere) words)
      (doAction g pipes) := by
  refine .skip (keyword_idle _ rfl) fun first ↦ .skip (atSymbol_idle _) fun b ↦ ?_
  split
  · exact (block_accounts hg laid _).close fun _ _ _ full ↦ full.part trivial fun _ ↦ rfl
  · refine .skip (name_idle _) fun name ↦ ?_
    have args : Accounts clean ts (fun words es ↦ Made clean ts (valueVisits everywhere es) words)
        (parenthesized? (g.value pipes)) :=
      parenthesized?_accounts (.several valueVisits_append) .nil (item_accounts hg pipes)
    exact args.close fun _ _ _ made ↦ made.cons trivial fun _ ↦ rfl

/-- A value that holds at most what is within the part it is. -/
theorem primary_accounts :
    Accounts clean ts (fun words e ↦ Made clean ts (e.visits everywhere) words)
    (primary g pipes) := by
  refine .peek fun c hc ↦ ?_
  have leaf {v : Visit} {e : Expr} (visits : e.visits everywhere = [.value e, v])
      (written : v.IsWritten ts) (complete : v.isComplete = true) :
      Made clean ts (e.visits everywhere) [] := by
    rw [visits]
    exact .cons trivial (fun _ ↦ rfl) (.cons written (fun _ ↦ complete) .nil)
  split
  · exact .of hc ((session_accounts hg pipes).last fun _ s made ↦ made s.arrow)
  · exact .of hc (.map (doAction_accounts hg laid pipes) fun _ _ made ↦ made)
  · exact .of hc (.map (string_idle _) fun _ _ none ↦ none ▸ leaf rfl trivial rfl)
  · next hk => exact .take hc hk nofun rfl (.pure (.cons trivial (fun _ ↦ rfl) .nil))
  · exact .of hc (.map (name_idle _) fun _ _ none ↦ none ▸ leaf rfl trivial rfl)
  · exact .of hc (.map (discretion_idle _) fun _ _ none ↦ none ▸ leaf rfl trivial rfl)
  · next hk =>
    refine .take hc hk nofun rfl ?_
    have items : Accounts clean ts (fun words es ↦ Made clean ts (valueVisits everywhere es) words)
        (commaList .rightBracket (g.value pipes)) :=
      commaList_accounts (.several valueVisits_append) .nil _ (item_accounts hg pipes)
    exact items.close fun _ _ _ made ↦ made.cons trivial fun _ ↦ rfl
  · next hk =>
    refine .take hc hk nofun rfl ?_
    have entries : Accounts clean ts (fun words es ↦
      Made clean ts (entryVisits everywhere es) words)
        (commaList .rightBrace (objectEntry g pipes)) :=
      commaList_accounts (.several entryVisits_append) .nil _ (objectEntry_accounts hg pipes)
    exact entries.close fun _ _ _ made ↦ made.cons trivial fun _ ↦ rfl
  · exact .of hc (.unexpected _)

/-- The words in a value belong to its parts. -/
theorem value_accounts :
    Accounts clean ts (fun words e ↦ Made clean ts (e.visits everywhere) words)
    (value g pipes) := by
  refine .cursor fun c hc ↦ .of hc ((primary_accounts hg laid pipes).bind fun input ↦ ?_)
  refine atPipe_accounts pipes (.pure fun words made ↦ ?_) fun d hd hk ↦ ?_
  · rwa [List.append_nil]
  · refine (pipeTail_accounts hg laid hd hk input _).bind hd fun p ↦ .pure ?_
    intro words piped before made
    rw [List.append_nil]
    exact piped before made

end Nested

end ProseLang.Parser
