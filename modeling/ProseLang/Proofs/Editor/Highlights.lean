import ProseLang.Proofs.Editor.Tokens
import ProseLang.Proofs.Program.Visits

/-!
# Highlights in order

Every highlight of a program stands for a token or for a part of one (`exists_stems`): those of a
part of a program stand for the tokens that its leaves are read from, for the words that it and its
clauses start with, and for the strings in it (`Visit.stems`). So what is left of them, sorted and
one for each place, is in order and without overlap, and lies within its lines
(`highlights_ordered`).

Apart from the arrow behind a session (`Visit.arrow?`), what is highlighted of a part
(`Visit.lasting`) stands for tokens that are neither comments nor arrows (`Highlight.StemsFrom`).
-/

namespace ProseLang

/-- Nothing is highlighted of what is not there. -/
theorem Highlight.ofOption_none {α : Type} (f : α → List Highlight) : ofOption f none = [] := rfl

/-- What is there is highlighted. -/
theorem Highlight.ofOption_some {α : Type} (f : α → List Highlight) (x : α) :
    ofOption f (some x) = f x := rfl

/-- A session without the arrow behind it, or another action. -/
def Action.withoutArrow : Action → Action
  | .session s => .session { s with arrow := none }
  | a => a

/-- The place of the arrow behind a part, if the part is a session that has one. -/
def Visit.arrow? : Visit → Option Span
  | .action (.session s) => s.arrow
  | _ => none

/-- What is highlighted of a part, apart from what is within it and the arrow behind it. -/
def Visit.lasting : Visit → List Highlight
  | .action a => a.withoutArrow.highlights
  | v => v.highlights

/-- The arrow of a part is highlighted behind the rest of it. -/
theorem Visit.highlights_eq (v : Visit) :
    v.highlights = v.lasting ++ Highlight.ofOption (Highlight.ofSpan .operator · []) v.arrow? := by
  cases v with
  | action a =>
    cases a with
    | session s =>
      simp only [highlights, lasting, arrow?, Action.withoutArrow, Action.highlights,
        Highlight.ofOption_none, List.append_nil]
    | _ => exact (List.append_nil _).symm
  | _ => exact (List.append_nil _).symm

namespace Highlight

/-- Whether a highlight stands for a token within a construct or for a part of one, which starts
where one of some outlines does if it is a string. -/
def StemsFrom (source : String) (os : List Outline) (h : Highlight) : Prop :=
  ∃ t ∈ visible (tokenize source).tokens, h.Shows source t ∧ t.kind.isAside = false
    ∧ ∀ literal, t.kind = .string literal → ∃ o ∈ os, o.span.start = t.span.start

variable {source : String} {kind : HighlightKind} {modifiers : List HighlightModifier}
  {os : List Outline}

private theorem StemsFrom.stems {h : Highlight} (stems : h.StemsFrom source os) : h.Stems source :=
  stems.imp fun _ ⟨ht, shown, _⟩ ↦ ⟨ht, shown⟩

/-! ## Leaves and openers -/

/-- A leaf is highlighted where it is read; one that may be a string has an outline. -/
theorem stems_leaf {l : Leaf} (read : l.IsRead (visible (tokenize source).tokens))
    (own : ¬ l.IsAside)
    (single : l.IsQuoted → .leaf l.span ∈ os ∧ .leaf l.span ∈ outlinesOf source) :
    ∀ h ∈ ofSpan kind l.span modifiers, h.StemsFrom source os := by
  intro h member
  obtain ⟨k, ht, quoted, aside⟩ := read.exists_token
  have valid := (tokenize_valid source).1 _ (mem_tokens_of_visible ht) _ List.mem_cons_self
  refine ⟨_, ht, .whole (fills_ofSpan valid member) ?_, Bool.eq_false_iff.2 (mt aside own), ?_⟩
  · exact fun literal isString ↦ (single (quoted literal isString)).2
  · exact fun literal isString ↦ ⟨_, (single (quoted literal isString)).1, rfl⟩

section

variable (among : ∀ o ∈ os, o ∈ outlinesOf source)
include among

/-- What is highlighted where something that holds parts starts is the first character of a
token. -/
theorem stems_head {o : Outline} (ho : o ∈ os) (holds : o.parts ≠ []) :
    StemsFrom source os ⟨o.span.start.line - 1, o.span.start.column, 1, kind, modifiers⟩ := by
  obtain ⟨t, ht, starts, own⟩ := (sound_nodes source o (among o ho)).begins holds
  obtain ⟨before, c, inner, cut, other, place, -⟩ := exists_stretch ht
  rw [← starts, place, Position.after_start, Nat.add_sub_cancel_left]
  have covers : Covers source.toList before [c]
      ⟨before.count '\n', utf16Length (lastLine before), 1, kind, modifiers⟩ := by
    refine ⟨?_, rfl, rfl, ?_, Nat.one_pos, ?_⟩
    · refine List.IsPrefix.trans ?_ cut
      rw [List.prefix_append_right_inj]
      exact List.prefix_append [c] inner
    · simpa [eq_comm] using other
    · rw [utf16Length_cons, utf16Units]
      split
      · exact Nat.le_refl 1
      · exact Nat.le_succ 1
  refine ⟨t, ht, .head covers ?_, own, fun _ _ ↦ ⟨o, ho, starts.symm⟩⟩
  rw [place, Position.after_start]

/-- A string that is read is highlighted piece by piece. -/
theorem stems_ofString {s : StringLit}
    (read : Leaf.IsRead (visible (tokenize source).tokens) (.string s))
    (found : s.outline ∈ os) : ∀ h ∈ ofString kind s, h.StemsFrom source os := by
  obtain ⟨literal, ht, same⟩ := read
  intro h member
  rw [← same] at member found
  exact ⟨_, ht, .piece rfl member (among _ found), rfl, fun _ _ ↦ ⟨_, found, rfl⟩⟩

end

private theorem lineFeed_not_mem_keyword (word : Keyword) : '\n' ∉ word.text.toList := by
  cases word <;> decide

/-- A reserved word is highlighted where it opens something. -/
theorem stems_ofKeyword {word : Keyword} {s : Span}
    (opens : word.Opens (tokenize source).tokens s) :
    ∀ h ∈ ofKeyword word s, h.StemsFrom source os := by
  intro h member
  obtain ⟨t, ht, isWord, starts⟩ := opens
  have seen : t ∈ visible (tokenize source).tokens := mem_visible.2 ⟨ht, by rw [isWord]; rfl⟩
  obtain ⟨before, c, inner, cut, -, place, spelled⟩ := exists_stretch seen
  rw [← spelled word.text (by rw [isWord]; rfl)] at cut place
  rw [ofKeyword] at member
  split at member
  · cases member
  · rw [← starts, place, Position.after_start, Nat.add_sub_cancel_left] at member
    have covers := covers_nonempty cut (lineFeed_not_mem_keyword word) (Nat.le_refl _) member
    have noString (literal : StringLiteral) : t.kind ≠ .string literal := by
      rw [isWord]
      exact nofun
    refine ⟨t, seen, .whole ⟨before, _, covers, ?_, ?_⟩ fun literal isString ↦ ?_, ?_, ?_⟩
    · rw [place, Position.after_start]
    · rw [place, Position.after_start (before ++ word.text.toList)]
    · exact absurd isString (noString literal)
    · rw [isWord]
      rfl
    · exact fun literal isString ↦ absurd isString (noString literal)

/-- The reserved word that a part starts with is a token of the source. -/
theorem stems_opener {o : Outline} (ho : o ∈ outlinesOf source) {word : Keyword}
    (opens : o.opener = some word) : ∀ h ∈ ofKeyword word o.span, h.StemsFrom source os :=
  stems_ofKeyword ((sound_nodes source o ho).opens word opens)

/-- A token other than a string is highlighted line by line. -/
theorem stems_ofText {k : TokenKind} {s : Span} (ht : ⟨k, s⟩ ∈ visible (tokenize source).tokens)
    {text : String} (written : k.text? = some text) (plain : ∀ literal, k ≠ .string literal)
    (own : k.isAside = false) : ∀ h ∈ ofText kind s.start text.toList, h.StemsFrom source os :=
  fun _ member ↦ ⟨_, ht, .line written plain member, own,
    fun literal isString ↦ absurd isString (plain literal)⟩

private theorem stems_nil : ∀ h ∈ ([] : List Highlight), h.StemsFrom source os :=
  fun _ h ↦ absurd h List.not_mem_nil

private theorem stems_ofOption {α : Type} {f : α → List Highlight} {x : Option α}
    (all : ∀ a, x = some a → ∀ h ∈ f a, h.StemsFrom source os) :
    ∀ h ∈ ofOption f x, h.StemsFrom source os := by
  cases x with
  | none => exact stems_nil
  | some a => exact all a rfl

end Highlight

open Highlight

variable {source : String} {os : List Outline}

/-! ## Parts -/

section

variable {leaves : List Leaf} (read : ∀ l ∈ leaves, l.IsRead (visible (tokenize source).tokens))
include read

/-- A name of a part is highlighted where it is read. -/
theorem Located.stems_name {x : Ident} (h : .name x ∈ leaves) {kind : HighlightKind}
    {modifiers : List HighlightModifier} : ∀ h ∈ ofIdent kind x modifiers, h.StemsFrom source os :=
  stems_leaf (read _ h) id False.elim

/-- The keys of settings are tokens of the source. -/
theorem Located.stems_keys {keys : List Ident} (h : ∀ x ∈ keys, .key x ∈ leaves) :
    ∀ h ∈ ofIdents .property keys, h.StemsFrom source os :=
  List.forall_mem_flatMap.2 fun x hx ↦ stems_leaf (read _ (h x hx)) id False.elim

private theorem Located.stems_count {n : Located Nat} (h : .count n ∈ leaves) :
    ∀ h ∈ ofNumber n, h.StemsFrom source os :=
  stems_leaf (read _ h) id False.elim

/-- A reserved word of a part is highlighted where it is read. -/
theorem Keyword.stems {word : Keyword} {span : Span} (h : .keyword word span ∈ leaves) :
    ∀ h ∈ ofKeyword word span, h.StemsFrom source os := by
  have opens : word.Opens (tokenize source).tokens span :=
    ⟨_, mem_tokens_of_visible (read _ h), rfl, rfl⟩
  exact stems_ofKeyword opens

private theorem AsBinding.stems {b : Option AsBinding} (h : ∀ l ∈ bindingLeaves b, l ∈ leaves) :
    ∀ h ∈ ofOption ofAsBinding b, h.StemsFrom source os := by
  cases b with
  | none => exact stems_nil
  | some b =>
    obtain ⟨word, name⟩ := List.forall_mem_cons.1 h
    exact List.forall_mem_append.2
      ⟨Keyword.stems read word, Located.stems_name read (List.forall_mem_singleton.1 name)⟩

private theorem stems_ofBranches {branches : List Branch}
    (h : ∀ l ∈ conditionWords (branches.map BranchOf.keyword), l ∈ leaves) :
    ∀ h ∈ ofBranches branches, h.StemsFrom source os := by
  cases branches with
  | nil => exact stems_nil
  | cons b branches =>
    obtain ⟨first, others⟩ := List.forall_mem_cons.1 h
    refine List.forall_mem_append.2 ⟨Keyword.stems read first, ?_⟩
    rw [List.map_map, List.forall_mem_map] at others
    exact List.forall_mem_flatMap.2 fun b hb ↦ Keyword.stems read (others b hb)

variable (among : ∀ o ∈ os, o ∈ outlinesOf source)
include among

private theorem Located.stems_quoted {x : Ident} (h : .quoted x ∈ leaves) (found : x.outline ∈ os)
    {kind : HighlightKind} : ∀ h ∈ ofIdent kind x [], h.StemsFrom source os :=
  stems_leaf (read _ h) id fun _ ↦ ⟨found, among _ found⟩

private theorem Located.stems_model {x : Ident} (here : .model x ∈ leaves)
    (found : x.outline ∈ os) : ∀ h ∈ ofModel x, h.StemsFrom source os := by
  intro h member
  rw [ofModel] at member
  split at member
  · exact stems_leaf (l := .model x) (read _ here) id (fun _ ↦ ⟨found, among _ found⟩) h member
  · cases member

end

section

variable (among : ∀ o ∈ os, o ∈ outlinesOf source)
include among

private theorem OperationOf.stems {o : Operation}
    (read : ∀ l ∈ (Visit.operation o).leaves, l.IsRead (visible (tokenize source).tokens))
    (found : o.outline ∈ os) : ∀ h ∈ o.highlights, h.StemsFrom source os := by
  simp only [OperationOf.highlights, List.forall_mem_append]
  refine ⟨⟨⟨?_, ?_⟩, ?_⟩, ?_⟩
  · split
    · exact stems_nil
    · exact List.forall_mem_singleton.2 (stems_head among found (List.cons_ne_nil _ _))
  · exact stems_leaf (l := .operator o.operator) (read _ (by simp)) id False.elim
  · exact stems_ofOption fun x hx ↦ Located.stems_name read (by simp [hx])
  · exact stems_ofOption fun x hx ↦ Located.stems_name read (by simp [hx])

private theorem Action.stems {a : Action}
    (read : ∀ l ∈ a.leaves, l.IsRead (visible (tokenize source).tokens))
    (found : ∀ o ∈ a.outline :: a.pieces, o ∈ os) :
    ∀ h ∈ a.withoutArrow.highlights, h.StemsFrom source os := by
  obtain ⟨own, pieces⟩ := List.forall_mem_cons.1 found
  cases a with
  | session s =>
    simp only [Action.pieces, SessionOf.outlines, List.forall_mem_append, List.forall_mem_map]
      at pieces
    obtain ⟨⟨⟨⟨⟨⟨-, model⟩, skills⟩, -⟩, -⟩, backoff⟩, -⟩ := pieces
    simp only [Action.withoutArrow, Action.highlights, List.forall_mem_append]
    refine ⟨⟨⟨⟨⟨⟨⟨⟨?_, ?_⟩, ?_⟩, ?_⟩, ?_⟩, ?_⟩, ?_⟩, ?_⟩, ?_⟩
    · exact stems_opener (among _ own) rfl
    · exact stems_ofOption fun x hx ↦ Located.stems_name read (by simp [hx])
    · exact stems_ofOption fun x hx ↦ Located.stems_name read (by simp [hx])
    · exact stems_ofOption fun x hx ↦
        Located.stems_model read among (by simp [hx]) (model x (by simp [hx]))
    · exact List.forall_mem_flatMap.2 fun x hx ↦
        Located.stems_quoted read among (by simp [hx]) (skills x hx)
    · exact Located.stems_keys read fun x hx ↦ by simp [hx]
    · exact stems_ofOption fun x hx ↦ Located.stems_count read (by simp [hx])
    · exact stems_ofOption fun x hx ↦
        Located.stems_quoted read among (by simp [hx]) (backoff x (by simp [hx]))
    · exact stems_nil
  | pipe p => exact stems_nil
  | doBlock b => exact stems_opener (among _ own) rfl
  | invoke i =>
    exact List.forall_mem_append.2 ⟨stems_opener (among _ own) rfl,
      Located.stems_name read (by simp)⟩

private theorem Import.stems {i : Import}
    (read : ∀ l ∈ (Statement.importSkill i).leaves, l.IsRead (visible (tokenize source).tokens))
    (strings : ∀ x ∈ [i.skill, i.source],
      Leaf.IsRead (visible (tokenize source).tokens) (.string x))
    (own : (Statement.importSkill i).outline ∈ os)
    (pieces : ∀ o ∈ (Statement.importSkill i).pieces, o ∈ os) :
    ∀ h ∈ (Statement.importSkill i).highlights, h.StemsFrom source os := by
  obtain ⟨skill, origin⟩ := List.forall_mem_cons.1 pieces
  simp only [Statement.highlights, List.forall_mem_append]
  refine ⟨⟨⟨?_, ?_⟩, ?_⟩, ?_⟩
  · exact stems_opener (among _ own) rfl
  · exact stems_ofString among (strings _ (by simp)) skill
  · exact Keyword.stems read (by simp)
  · exact stems_ofString among (strings _ (by simp)) (List.forall_mem_singleton.1 origin)

private theorem AgentOf.stems {a : Agent}
    (read : ∀ l ∈ (Statement.agent a).leaves, l.IsRead (visible (tokenize source).tokens))
    (own : (Statement.agent a).outline ∈ os)
    (pieces : ∀ o ∈ a.outlines, o ∈ os) :
    ∀ h ∈ (Statement.agent a).highlights, h.StemsFrom source os := by
  simp only [AgentOf.outlines, List.cons_append, List.forall_mem_append, List.forall_mem_cons,
    List.forall_mem_map] at pieces
  obtain ⟨-, ⟨⟨model, -⟩, skills⟩, -⟩ := pieces
  simp only [Statement.highlights, List.forall_mem_append]
  refine ⟨⟨⟨⟨?_, ?_⟩, ?_⟩, ?_⟩, ?_⟩
  · exact stems_opener (among _ own) rfl
  · exact Located.stems_name read (by simp)
  · exact Located.stems_keys read fun x hx ↦ by simp [hx]
  · exact stems_ofOption fun x hx ↦
      Located.stems_model read among (by simp [hx]) (model x (by simp [hx]))
  · exact List.forall_mem_flatMap.2 fun x hx ↦
      Located.stems_quoted read among (by simp [hx]) (skills x hx)

private theorem ParallelOf.stems {p : Parallel}
    (read : ∀ l ∈ (Statement.parallel p).leaves, l.IsRead (visible (tokenize source).tokens))
    (own : (Statement.parallel p).outline ∈ os)
    (pieces : ∀ o ∈ p.outlines, o ∈ os) :
    ∀ h ∈ (Statement.parallel p).highlights, h.StemsFrom source os := by
  simp only [ParallelOf.outlines, List.forall_mem_append, List.forall_mem_map] at pieces
  obtain ⟨⟨⟨join, onFail⟩, -⟩, -⟩ := pieces
  simp only [Statement.highlights, List.forall_mem_append]
  refine ⟨⟨⟨⟨?_, ?_⟩, ?_⟩, ?_⟩, ?_⟩
  · exact stems_opener (among _ own) rfl
  · exact Located.stems_keys read fun x hx ↦ by simp [hx]
  · exact stems_ofOption fun x hx ↦
      Located.stems_quoted read among (by simp [hx]) (join x (by simp [hx]))
  · exact stems_ofOption fun x hx ↦
      Located.stems_quoted read among (by simp [hx]) (onFail x (by simp [hx]))
  · exact stems_ofOption fun x hx ↦ Located.stems_count read (by simp [hx])

private theorem ForEachOf.stems {f : ForEach}
    (read : ∀ l ∈ (Statement.forEach f).leaves, l.IsRead (visible (tokenize source).tokens))
    (own : (Statement.forEach f).outline ∈ os) :
    ∀ h ∈ (Statement.forEach f).highlights, h.StemsFrom source os := by
  simp only [Statement.highlights, List.forall_mem_append]
  refine ⟨⟨⟨⟨?_, ?_⟩, ?_⟩, ?_⟩, ?_⟩
  · split
    · next isParallel =>
      refine stems_opener (among _ own) ?_
      rw [outline_forEach, Outline.opener_node, if_pos isParallel]
    · exact stems_nil
  · exact Keyword.stems read (by simp)
  · exact Located.stems_name read (by simp)
  · exact stems_ofOption fun x hx ↦ Located.stems_name read (by simp [hx])
  · exact Keyword.stems read (by simp)

private theorem LoopOf.stems {l : Loop}
    (read : ∀ x ∈ (Statement.loop l).leaves, x.IsRead (visible (tokenize source).tokens))
    (own : (Statement.loop l).outline ∈ os) :
    ∀ h ∈ (Statement.loop l).highlights, h.StemsFrom source os := by
  simp only [Statement.highlights, List.forall_mem_append]
  refine ⟨⟨⟨⟨?_, ?_⟩, ?_⟩, ?_⟩, ?_⟩
  · exact stems_opener (among _ own) rfl
  · exact stems_ofOption fun x hx ↦ Keyword.stems read (by simp [hx])
  · exact AsBinding.stems read fun l hl ↦ by simp [hl]
  · exact Located.stems_keys read fun x hx ↦ by simp [hx]
  · exact stems_ofOption fun x hx ↦ Located.stems_count read (by simp [hx])

private theorem TryOf.stems {t : Try}
    (read : ∀ l ∈ (Statement.attempt t).leaves, l.IsRead (visible (tokenize source).tokens))
    (own : (Statement.attempt t).outline ∈ os)
    (pieces : ∀ o ∈ (Statement.attempt t).pieces, o ∈ os) :
    ∀ h ∈ (Statement.attempt t).highlights, h.StemsFrom source os := by
  rw [Statement.pieces, handlerOutlines_eq, clauseOutlines_eq] at pieces
  simp only [List.forall_mem_append, List.forall_mem_map] at pieces
  simp only [Statement.highlights, List.forall_mem_append]
  refine ⟨⟨?_, ?_⟩, ?_⟩
  · exact stems_opener (among _ own) rfl
  · refine stems_ofOption fun h hh ↦ List.forall_mem_append.2 ⟨?_, ?_⟩
    · exact stems_opener (among _ <| pieces.1 h (by simp [hh])) rfl
    · exact AsBinding.stems read fun l hl ↦ by simp [hh, hl]
  · exact stems_ofOption fun b hb ↦ stems_opener (among _ <| pieces.2 b (by simp [hb])) rfl

private theorem Statement.stems {s : Statement}
    (read : ∀ l ∈ s.leaves, l.IsRead (visible (tokenize source).tokens))
    (strings : ∀ x, .string x ∈ (Visit.statement s).within →
      Leaf.IsRead (visible (tokenize source).tokens) (.string x))
    (found : ∀ o ∈ s.outline :: s.pieces, o ∈ os) :
    ∀ h ∈ s.highlights, h.StemsFrom source os := by
  obtain ⟨own, pieces⟩ := List.forall_mem_cons.1 found
  cases s with
  | comment c | action a => exact stems_nil
  | importSkill i =>
    refine Import.stems among read (fun x hx ↦ strings x ?_) own pieces
    exact List.mem_map_of_mem (f := Visit.string) hx
  | agent a => exact AgentOf.stems among read own pieces
  | block b =>
    simp only [Statement.highlights, List.forall_mem_append]
    refine ⟨⟨?_, ?_⟩, ?_⟩
    · exact stems_opener (among _ own) rfl
    · exact Located.stems_name read (by simp)
    · exact List.forall_mem_flatMap.2 fun x hx ↦ Located.stems_name read (by simp [hx])
  | binding kind b =>
    cases kind
    all_goals
      exact List.forall_mem_append.2 ⟨stems_opener (among _ own) rfl,
        Located.stems_name read (by simp)⟩
  | assignment b => exact Located.stems_name read (by simp)
  | parallel p => exact ParallelOf.stems among read own pieces
  | repeated r =>
    simp only [Statement.highlights, List.forall_mem_append]
    refine ⟨⟨?_, ?_⟩, ?_⟩
    · exact stems_opener (among _ own) rfl
    · exact Located.stems_count read (by simp)
    · exact AsBinding.stems read fun l hl ↦ by simp [hl]
  | forEach f => exact ForEachOf.stems among read own
  | loop l => exact LoopOf.stems among read own
  | attempt t => exact TryOf.stems among read own pieces
  | throw t => exact stems_opener (among _ own) rfl
  | choice c =>
    rw [Statement.pieces, optionOutlines_eq] at pieces
    refine List.forall_mem_append.2 ⟨stems_opener (among _ own) rfl, ?_⟩
    exact List.forall_mem_flatMap.2 fun o ho ↦
      stems_opener (among _ <| List.forall_mem_map.1 pieces o ho) rfl
  | conditional c =>
    rw [Statement.pieces, clauseOutlines_eq] at pieces
    obtain ⟨-, otherwise⟩ := List.forall_mem_append.1 pieces
    rw [List.forall_mem_map] at otherwise
    refine List.forall_mem_append.2 ⟨stems_ofBranches read fun l hl ↦ hl, ?_⟩
    exact stems_ofOption fun b hb ↦ stems_opener (among _ <| otherwise b (by simp [hb])) rfl

end

/-- The leaves of the parts of a program are read from its tokens. -/
theorem Visit.isRead_of_mem_leaves {v : Visit} (hv : v ∈ (parse source).program.visits) :
    ∀ l ∈ v.leaves, l.IsRead (visible (tokenize source).tokens) := fun l hl ↦
  leaves_parseTokens (tokenize source).tokens l (List.mem_flatMap.2 ⟨v, hv, hl⟩)

/-- Whatever is highlighted of a part of a program, but for an arrow, stands for a token within the
part or for a part of one. -/
theorem Visit.stems {v : Visit} (hv : v ∈ (parse source).program.visits) :
    ∀ h ∈ v.lasting, h.StemsFrom source v.outlines := by
  have read := isRead_of_mem_leaves hv
  have among : ∀ o ∈ v.outlines, o ∈ outlinesOf source :=
    (parse source).program.outlines_of_visits v hv
  cases v with
  | statement s =>
    refine Statement.stems among read (fun x hx ↦ ?_) fun o ho ↦ ho
    exact isRead_of_mem_leaves (bodyVisits_holdsWithin _ _ hv hx) _ List.mem_cons_self
  | action a => exact Action.stems among read fun o ho ↦ ho
  | operation o => exact OperationOf.stems among read List.mem_cons_self
  | property p => exact stems_leaf (l := .key p.key) (read _ (by simp)) id False.elim
  | value e =>
    cases e with
    | number n => exact stems_leaf (l := .numeral n) (read _ (by simp)) id False.elim
    | object o =>
      refine List.forall_mem_flatMap.2 fun e he ↦ Located.stems_name read ?_
      exact List.mem_map.2 ⟨e, List.mem_of_mem_filter he, rfl⟩
    | action | string | ident | array | discretion => exact stems_nil
  | context c =>
    exact List.forall_mem_flatMap.2 fun x hx ↦ Located.stems_name read (by simp [hx])
  | string s => exact stems_ofString among (read _ (by simp)) List.mem_cons_self
  | discretion d =>
    obtain ⟨literal, ht, same⟩ := read (.discretion d) (by simp)
    rw [lasting, highlights]
    split
    · exact stems_nil
    · rw [← same]
      exact stems_ofText ht rfl (fun _ isString ↦ by cases isString) rfl
    · exact fun _ isAction ↦ by cases isAction
  | reference x => exact Located.stems_name read (by simp)
  | statementEnd => exact stems_nil

/-- The arrow behind a part of a program is highlighted as a whole. -/
theorem Visit.stems_arrow {v : Visit} (hv : v ∈ (parse source).program.visits) :
    ∀ h ∈ ofOption (ofSpan .operator · []) v.arrow?, (h.kind = .operator ∧ h.length = 2)
      ∧ ∃ t ∈ visible (tokenize source).tokens, h.Shows source t ∧ t.kind = .symbol .arrow := by
  intro h member
  cases behind : v.arrow? with
  | none =>
    rw [behind] at member
    cases member
  | some x =>
    rw [behind] at member
    have leaf : .arrow x ∈ v.leaves := by
      unfold arrow? at behind
      split at behind
      · simp [behind]
      · cases behind
    have ht : ⟨.symbol .arrow, x⟩ ∈ visible (tokenize source).tokens :=
      isRead_of_mem_leaves hv _ leaf
    have valid := (tokenize_valid source).1 _ (mem_tokens_of_visible ht) _ List.mem_cons_self
    refine ⟨?_, _, ht, .whole (fills_ofSpan valid member) nofun, rfl⟩
    obtain ⟨before, c, inner, -, -, place, spelled⟩ := exists_stretch ht
    obtain rfl : x = _ := place
    rw [← spelled "->" rfl, ofOption_some, ofSpan] at member
    split at member
    · cases member
    · obtain ⟨rfl, -⟩ := mem_nonempty.1 member
      have plain : '\n' ∉ "->".toList := by decide
      have two : utf16Length "->".toList = 2 := by decide
      refine ⟨rfl, ?_⟩
      simp only [Position.after_start]
      rw [lastLine_append before plain, utf16Length_append, Nat.add_sub_cancel_left, two]

/-- The highlights of a program are left of some that stand for tokens or for parts of them. -/
theorem exists_stems (source : String) :
    ∃ hs : List Highlight, (parse source).program.highlights = firstOfEach (hs.mergeSort inOrder)
      ∧ ∀ h ∈ hs, h.Stems source := by
  refine ⟨_, rfl, List.forall_mem_append.2 ⟨?_, ?_⟩⟩
  · exact List.forall_mem_flatMap.2 fun c hc h member ↦
      ⟨_, mem_of_mem_commentsOf hc, .line rfl nofun member⟩
  · refine List.forall_mem_flatMap.2 fun v hv ↦ ?_
    have part : v ∈ (parse source).program.visits :=
      (bodyVisits_sublist (fun _ _ ↦ rfl) _).subset hv
    rw [v.highlights_eq]
    refine List.forall_mem_append.2 ⟨fun h member ↦
      (v.stems part h member).stems, fun h member ↦ ?_⟩
    obtain ⟨-, t, ht, shown, -⟩ := Visit.stems_arrow part h member
    exact ⟨t, ht, shown⟩

private theorem Highlight.Stems.room {h : Highlight} (stems : h.Stems source) : 0 < h.length := by
  obtain ⟨t, ht, shown⟩ := stems
  exact shown.room ht

private theorem Highlight.Stems.within_line {h : Highlight} (stems : h.Stems source) :
    ∃ line, (splitAtChar '\n' source.toList)[h.line]? = some line
      ∧ h.start + h.length ≤ utf16Length line := by
  obtain ⟨t, ht, shown⟩ := stems
  obtain ⟨before, inner, covers, -⟩ := shown.within ht
  exact covers.within_line

/-- The highlights of the program of a text, whatever is wrong with the text, are in order, each of
them behind the end of those before it on its line. None of them is empty, and each lies within its
line. -/
theorem highlights_ordered (source : String) :
    ((parse source).program.highlights.Pairwise fun a b ↦
        a.line < b.line ∨ a.line = b.line ∧ a.start < b.start ∧ a.start + a.length ≤ b.start)
      ∧ ∀ h ∈ (parse source).program.highlights, 0 < h.length
        ∧ ∃ line, (splitAtChar '\n' source.toList)[h.line]? = some line
          ∧ h.start + h.length ≤ utf16Length line := by
  obtain ⟨hs, left, stems⟩ := exists_stems source
  have was {h : Highlight} (member : h ∈ (parse source).program.highlights) : h.Stems source := by
    rw [left] at member
    exact stems h (List.mem_mergeSort.1 (mem_of_mem_firstOfEach member))
  have ordered : (parse source).program.highlights.Pairwise Precedes := by
    rw [left]
    exact ordered_of_apart (fun h hh ↦ (stems h hh).room)
      fun a ha b hb ↦ (stems a ha).apart (stems b hb)
  refine ⟨ordered.imp_of_mem fun {a b} ha _ precedes ↦ ?_, fun h hh ↦ ?_⟩
  · have room := (was ha).room
    rcases precedes with line | ⟨line, start⟩
    · exact .inl line
    · exact .inr ⟨line, by omega, start⟩
  · exact ⟨(was hh).room, (was hh).within_line⟩

end ProseLang
