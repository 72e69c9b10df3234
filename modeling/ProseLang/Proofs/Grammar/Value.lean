import ProseLang.Proofs.Grammar.Session

/-!
# Values and pipes within surroundings
-/

namespace ProseLang.Parser

variable {e : Surroundings} {L n : Nat} {c : Cursor} {g g' : Nested}

/-- A `do` is read the same. -/
theorem doAction_reads (hg : Agrees e n g g') (pipes : Bool) (h : c.Live L (n + 1)) :
    Reads e L c (fun _ d ↦ d.At L n) (doAction g pipes) (doAction g' pipes) := by
  refine (keyword_reads h).bind fun first d hd ↦ ?_
  refine atSymbol_reads hd.at rfl ?_ fun hd ↦ ?_
  · refine (name_reads (hd.mono (Nat.le_succ n))).bind fun name d hd ↦ ?_
    refine (parenthesized?_reads hd.at fun a ha ↦ hg.value pipes ha).bind fun args a ha ↦ ?_
    exact spanFrom_reads (reads_pure (by rw [recast_invoke]; rfl) ha)
  · refine (block_reads hg hd.at).bind fun body a ha ↦ ?_
    exact spanFrom_reads (reads_pure (by rw [recast_doBlock]; rfl) ha)

private theorem objectEntry_reads (hg : Agrees e n g g') (pipes : Bool) (h : c.Live L n) :
    Reads e L c (fun _ d ↦ d.At L n) (objectEntry g pipes) (objectEntry g' pipes) := by
  refine (name_reads (h.mono (Nat.le_succ n))).bind fun key d hd ↦ ?_
  refine (symbol?_reads (hd.at.mono (Nat.le_succ n)) rfl).bind fun b a ⟨_, hnone, hlive⟩ ↦ ?_
  cases b with
  | true =>
    refine Reads.bind (R := fun _ d ↦ d.At L n)
      ((hg.value pipes (hlive rfl)).map fun _ ↦ by rfl) fun value a ha ↦ ?_
    exact reads_pure rfl ha
  | false =>
    obtain rfl := hnone rfl
    exact reads_pure rfl hd.at

/-- A value without a pipe is read the same. -/
theorem primary_reads (hg : Agrees e n g g') (pipes : Bool) (h : c.Live L (n + 1)) :
    Reads e L c (fun _ d ↦ d.At L n) (primary g pipes) (primary g' pipes) := by
  refine peek_reads h.ne_nil ?_
  cases hk : c.current.kind with
  | keyword word =>
    cases word with
    | session =>
      refine (session_reads hg pipes h).bind fun s d hd ↦ ?_
      exact reads_pure (congrArg Expr.action (recast_session _ s).symm) hd
    | do_ => exact (doAction_reads hg pipes h).map fun _ ↦ rfl
    | _ => exact unexpected_reads h.toStands
  | string literal =>
    exact ((string_reads h).map fun _ ↦ by rfl).mono fun _ _ _ hd ↦ hd.at
  | number digits =>
    refine (take_reads h.at (by rw [hk]; rfl)).bind fun t d hd ↦ ?_
    exact reads_pure rfl hd.at
  | identifier text =>
    exact ((name_reads h).map fun _ ↦ by rfl).mono fun _ _ _ hd ↦ hd.at
  | discretion literal =>
    exact ((discretion_reads h).map fun _ ↦ by rfl).mono fun _ _ _ hd ↦ hd.at
  | symbol mark =>
    cases mark with
    | leftBracket =>
      refine (take_reads h.at (by rw [hk]; rfl)).bind fun t d hd ↦ ?_
      refine (commaList_reads hd rfl fun a ha ↦ hg.value pipes ha).bind fun items a ha ↦ ?_
      exact spanFrom_reads (reads_pure (by rw [recast_expr_array]; rfl) ha.at)
    | leftBrace =>
      refine (take_reads h.at (by rw [hk]; rfl)).bind fun t d hd ↦ ?_
      refine (commaList_reads hd rfl fun a ha ↦ objectEntry_reads hg pipes ha).bind
        fun items a ha ↦ ?_
      exact spanFrom_reads (reads_pure (by rw [recast_expr_object]; rfl) ha.at)
    | _ => exact unexpected_reads h.toStands
  | _ => exact unexpected_reads h.toStands

private theorem pipeNames_reads (operator : PipeOperator) (h : c.Live L n) :
    Reads e L c (fun _ d ↦ d.At L n) (pipeNames operator) (pipeNames operator) := by
  have h' := h.mono (Nat.le_succ n)
  rw [pipeNames]
  split
  · refine (symbol_reads h'.at (.inr rfl)).bind fun _ d hd ↦ ?_
    refine (name_reads (hd.mono (Nat.le_succ n))).bind fun accumulator d hd ↦ ?_
    refine (symbol_reads (hd.at.mono (Nat.le_succ n)) (.inr rfl)).bind fun _ d hd ↦ ?_
    refine (name_reads (hd.mono (Nat.le_succ n))).bind fun item d hd ↦ ?_
    refine (symbol_reads (hd.at.mono (Nat.le_succ n)) (.inr rfl)).bind fun _ d hd ↦ ?_
    exact reads_pure rfl hd.at
  · refine (symbol?_reads h'.at rfl).bind fun b d ⟨_, hnone, hlive⟩ ↦ ?_
    cases b with
    | true =>
      refine (name_reads ((hlive rfl).mono (Nat.le_succ n))).bind fun item d hd ↦ ?_
      refine (symbol_reads (hd.at.mono (Nat.le_succ n)) (.inr rfl)).bind fun _ d hd ↦ ?_
      exact reads_pure rfl hd.at
    | false =>
      obtain rfl := hnone rfl
      exact reads_pure rfl h.at

private theorem inlineBody_reads (hg : Agrees e n g g') (h : c.Live L n) :
    Reads e L c (fun _ d ↦ d.At L n) (inlineBody g) (inlineBody g') := by
  refine peek_reads h.ne_nil ?_
  cases hk : c.current.kind with
  | newline | dedent | endOfFile => exact missingBlock_reads h.toStands
  | _ =>
    refine gathered_reads (hg.statement false h.toStands h.ne_nil h.length_le)
      (fun read d hd ↦ ?_) fun read f f' d stands tells ↦ ?_
    · exact reads_pure rfl hd.1
    · exact throw_reads_of_tells stands tells

private theorem pipeOperation_reads (hg : Agrees e n g g') (h : c.At L n) :
    Reads e L c (fun _ d ↦ d.At L n) (pipeOperation g) (pipeOperation g') := by
  refine (expect_reads (h.mono (Nat.le_succ n)) rfl (by simp) (.inr rfl)).bind fun first d hd ↦ ?_
  refine (name_reads (hd.mono (Nat.le_succ n))).bind fun name d hd ↦ ?_
  rw [val_recast]
  cases PipeOperator.ofText? name.val with
  | none => exact throw_reads hd.toStands rfl
  | some operator =>
    refine (pipeNames_reads operator hd).bind fun names d hd ↦ ?_
    refine (symbol_reads (hd.mono (Nat.le_succ n)) (.inr rfl)).bind fun _ d hd ↦ cursor_reads ?_
    rw [Cursor.atBlock_within hd.toStands]
    split
    · next hb =>
      refine (indentedBody_reads hg hd.at hb).bind fun body a ha ↦ ?_
      exact spanFrom_reads (reads_pure rfl ha)
    · refine (inlineBody_reads hg hd).bind fun body a ha ↦ ?_
      exact spanFrom_reads (reads_pure rfl ha)

/-- The operations of a pipe are read the same. -/
theorem pipeTail_reads (hg : Agrees e n g g') (input : Expr) (first : Span) (h : c.At L n) :
    Reads e L c (fun _ d ↦ d.At L n) (pipeTail g input first)
      (pipeTail g' (recast .bare input) .nowhere) := by
  refine Reads.bind (R := fun _ d ↦ d.At L n) (manyWhile_reads (I := fun d ↦ d.At L n)
    (J := fun d ↦ d.At L n) h (fun d hd ↦ ?_) fun d hd ↦ pipeOperation_reads hg hd)
    fun operations d hd ↦ ?_
  · refine at?_reads hd.toStands (by simp) (.inr rfl) ?_
    exact reads_pure rfl ⟨hd, fun _ ↦ hd⟩
  · exact spanFrom_reads (reads_pure rfl hd)

/-- The operations that may follow an input. -/
theorem atPipe_reads {α : Type} [Recastable α] {R : α → Cursor → Prop} (pipes : Bool)
    {k k' : Bool → Parser α} (h : c.At L n) (hno : Reads e L c R (k false) (k' false))
    (hyes : Reads e L c R (k true) (k' true)) :
    Reads e L c R (atPipe pipes >>= k) (atPipe pipes >>= k') := by
  refine Reads.bind (R := fun _ d ↦ d = c)
    (at?_reads h.toStands (by simp) (.inr rfl) (reads_pure rfl rfl)) ?_
  rintro b _ rfl
  cases b with
  | false => exact hno
  | true => exact hyes

/-- A value is read the same. -/
theorem value_reads (hg : Agrees e n g g') (pipes : Bool) (h : c.Live L (n + 1)) :
    Reads e L c (fun _ d ↦ d.At L n) (value g pipes) (value g' pipes) := by
  refine cursor_reads ?_
  rw [Cursor.current_within h.ne_nil, span_recast]
  refine (primary_reads hg pipes h).bind fun input d hd ↦ atPipe_reads pipes hd ?_ ?_
  · exact reads_pure rfl hd
  · refine (pipeTail_reads hg input _ hd).bind fun p a ha ↦ ?_
    exact reads_pure (by rw [recast_expr_action, recast_pipe]) ha

end ProseLang.Parser
