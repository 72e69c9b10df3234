import ProseLang.Proofs.Editor.Firsts
import ProseLang.Proofs.Editor.Styles

/-!
# Highlights at one place

Highlights at one place stand for one token, so they agree on whether it is a comment, an arrow or
something else (`Highlight.Tells`, `isArrow_iff_shows`). Comments and arrows may therefore be left
out before or after one highlight is kept for each place (`filter_highlights_parse`).

What an agent lends to its sessions (`AgentOf.lends`) is highlighted at places where nothing is
highlighted in another way (`AgentOf.alone`): within the agent as its settings are apart, and
elsewhere as whatever may be a string has an outline, and outlines are apart or nested.
-/

namespace ProseLang

namespace Highlight

/-- Whether a highlight is that of an arrow, the operator of two characters. -/
def isArrow (h : Highlight) : Bool := h.kind = .operator && h.length = 2

/-- Whether a highlight is that of neither a comment nor an arrow. -/
def isLasting (h : Highlight) : Bool := h.kind ≠ .comment && !h.isArrow

private theorem IsStyled.isLasting {h : Highlight} (styled : h.IsStyled) : h.isLasting = true := by
  have arrow : h.isArrow = false := by
    rw [isArrow, Bool.and_eq_false_iff, decide_eq_false_iff_not, decide_eq_false_iff_not]
    by_cases operator : h.kind = .operator
    · have single := styled.operator operator
      omega
    · exact .inl operator
  simp [Highlight.isLasting, styled.comment, arrow]

end Highlight

open Highlight

/-! ## What lasts -/

/-- Whether a highlight stands for a token and tells whether the token is a comment or an arrow. -/
def Highlight.Tells (source : String) (h : Highlight) : Prop :=
  ∃ t ∈ visible (tokenize source).tokens, h.Shows source t
    ∧ (h.kind = .comment ↔ t.kind.isComment = true) ∧ (h.isArrow = true ↔ t.kind = .symbol .arrow)

variable {source : String}

private theorem Highlight.Tells.isLasting_eq {g h : Highlight} (hg : g.Tells source)
    (hh : h.Tells source) (same : g.samePlace h) : g.isLasting = h.isLasting := by
  obtain ⟨t, ht, shown, comment, arrow⟩ := hg
  obtain ⟨u, hu, shown', comment', arrow'⟩ := hh
  obtain rfl := shown.eq_of_samePlace shown' ht hu same
  have isArrow : g.isArrow = h.isArrow := Bool.eq_iff_iff.2 (arrow.trans arrow'.symm)
  simp only [isLasting, isArrow, ne_eq, comment.trans comment'.symm]

private theorem Visit.tells {v : Visit} (hv : v ∈ (parse source).program.visits) :
    ∀ h ∈ v.highlights, h.Tells source := by
  rw [v.highlights_eq]
  refine List.forall_mem_append.2 ⟨fun h member ↦ ?_, fun h member ↦ ?_⟩
  · obtain ⟨⟨kind, span⟩, ht, shown, own, -⟩ := Visit.stems hv h member
    have lasting := (v.styled h member).isLasting
    simp only [isLasting, Bool.and_eq_true, decide_eq_true_eq, Bool.not_eq_true'] at lasting
    refine ⟨_, ht, shown, iff_of_false lasting.1 fun comment ↦ ?_, ?_⟩
    · cases kind with
      | comment => cases own
      | _ => cases comment
    · rw [lasting.2]
      refine iff_of_false Bool.false_ne_true fun (arrow : kind = _) ↦ ?_
      rw [arrow] at own
      cases own
  · obtain ⟨⟨kind, length⟩, t, ht, shown, arrow⟩ := Visit.stems_arrow hv h member
    refine ⟨t, ht, shown, iff_of_false ?_ ?_, iff_of_true ?_ arrow⟩
    · simp [kind]
    · simp [arrow, TokenKind.isComment]
    · simp [isArrow, kind, length]

private theorem isLasting_arrow {v : Visit} (hv : v ∈ (parse source).program.visits) :
    ∀ h ∈ ofOption (ofSpan .operator · []) v.arrow?, h.isLasting = false := by
  intro h member
  obtain ⟨⟨kind, length⟩, -⟩ := Visit.stems_arrow hv h member
  simp [isLasting, isArrow, kind, length]

private theorem filter_highlights {v : Visit} (hv : v ∈ (parse source).program.visits) :
    v.highlights.filter isLasting = v.lasting := by
  have others : (ofOption (ofSpan .operator · []) v.arrow?).filter isLasting = [] :=
    List.filter_eq_nil_iff.2 fun h member ↦ by simp [isLasting_arrow hv h member]
  rw [v.highlights_eq, List.filter_append, others, List.append_nil]
  exact List.filter_eq_self.2 fun h member ↦ (v.styled h member).isLasting

/-- A part that highlights look into is one of the program. -/
theorem mem_visits_of_highlightedInside {p : Program} {v : Visit}
    (hv : v ∈ bodyVisits highlightedInside p.statements) : v ∈ p.visits :=
  (bodyVisits_sublist (fun _ _ ↦ rfl) _).subset hv

/-- What is highlighted of a program, before one highlight is kept for each place. -/
def Program.everyHighlight (p : Program) : List Highlight :=
  (p.comments.flatMap fun c ↦ ofText .comment c.span.start c.text.toList)
    ++ (bodyVisits highlightedInside p.statements).flatMap Visit.highlights

private theorem Program.highlights_eq (p : Program) : p.highlights = firsts p.everyHighlight := rfl

private theorem tells_everyHighlight (source : String) :
    ∀ h ∈ (parse source).program.everyHighlight, h.Tells source := by
  refine List.forall_mem_append.2 ⟨?_, ?_⟩
  · refine List.forall_mem_flatMap.2 fun c hc h member ↦ ?_
    have kind := (marked_ofText h member).1
    exact ⟨_, mem_of_mem_commentsOf hc, .line rfl nofun member, iff_of_true kind rfl,
      iff_of_false (by simp [isArrow, kind]) nofun⟩
  · exact List.forall_mem_flatMap.2 fun v hv ↦ Visit.tells (mem_visits_of_highlightedInside hv)

/-- Arrows are highlighted as arrows, and nothing else is. -/
theorem isArrow_iff_shows {h : Highlight} (member : h ∈ (parse source).program.highlights) :
    h.isArrow = true
      ↔ ∃ t ∈ visible (tokenize source).tokens, h.Shows source t ∧ t.kind = .symbol .arrow := by
  rw [Program.highlights_eq] at member
  obtain ⟨t, ht, shown, -, arrow⟩ := tells_everyHighlight source h
    (List.mem_mergeSort.1 (mem_of_mem_firstOfEach member))
  refine arrow.trans ⟨fun kind ↦ ⟨t, ht, shown, kind⟩, fun ⟨u, hu, shown', kind⟩ ↦ ?_⟩
  obtain rfl := shown.eq_of_samePlace shown' ht hu (samePlace_iff.2 ⟨rfl, rfl⟩)
  exact kind

/-- The highlights of a program but for comments and arrows are those that are left of what is
highlighted of its parts otherwise. -/
theorem filter_highlights_parse (source : String) :
    (parse source).program.highlights.filter isLasting
      = firsts ((bodyVisits highlightedInside (parse source).program.statements).flatMap
          Visit.lasting) := by
  have comments : ((parse source).program.comments.flatMap fun c ↦
      ofText .comment c.span.start c.text.toList).filter isLasting = [] := by
    refine List.filter_eq_nil_iff.2 fun h member ↦ ?_
    obtain ⟨c, -, member⟩ := List.mem_flatMap.1 member
    simp [isLasting, (marked_ofText h member).1]
  have parts : ((bodyVisits highlightedInside (parse source).program.statements).flatMap
      Visit.highlights).filter isLasting
        = (bodyVisits highlightedInside (parse source).program.statements).flatMap
          Visit.lasting := by
    rw [List.filter_flatMap]
    exact List.flatMap_congr fun v hv ↦ filter_highlights (mem_visits_of_highlightedInside hv)
  have tells := tells_everyHighlight source
  rw [Program.highlights_eq,
    filter_firsts fun a ha b hb same ↦ (tells a ha).isLasting_eq (tells b hb) same,
    Program.everyHighlight, List.filter_append, comments, parts, List.nil_append]

/-! ## What agents lend -/

/-- What is highlighted of the settings that an agent lends to its sessions, with what each takes
up. -/
def AgentOf.lends (a : Agent) : List (Outline × List Highlight) :=
  a.model.toList.map (fun m ↦ (m.outline, ofModel m))
    ++ a.prompt.toList.map (fun s ↦ (s.outline, ofString .string s))
    ++ a.skills.map fun s ↦ (s.outline, ofIdent .skill s [])

/-- Whether highlights, in order, stand for the string that takes up an outline. -/
structure Highlight.Quote (source : String) (o : Outline) (hs : List Highlight) : Prop where
  shows : ∀ h ∈ hs, ∃ literal, ⟨.string literal, o.span⟩ ∈ visible (tokenize source).tokens
    ∧ h.Shows source ⟨.string literal, o.span⟩
  ordered : hs.Pairwise Precedes

/-- Of a string one highlight at most stands at a place. -/
theorem Highlight.Quote.eq_of_samePlace {o : Outline} {hs : List Highlight} {g h : Highlight}
    (quote : Quote source o hs) (hg : g ∈ hs) (hh : h ∈ hs) (same : g.samePlace h) : g = h := by
  have symmetric : Std.Symm fun a b : Highlight ↦ a.Precedes b ∨ b.Precedes a := ⟨fun _ _ ↦ Or.symm⟩
  have either : hs.Pairwise fun a b ↦ a.Precedes b ∨ b.Precedes a := quote.ordered.imp .inl
  by_contra other
  rcases either.forall hg hh other with before | after
  · obtain ⟨_, ht, shown⟩ := quote.shows g hg
    exact before.not_samePlace (shown.room ht) same
  · obtain ⟨_, hu, shown⟩ := quote.shows h hh
    rw [samePlace_comm] at same
    exact after.not_samePlace (shown.room hu) same

private theorem Highlight.quote_ofSpan {s : Span} {kind : HighlightKind}
    {modifiers : List HighlightModifier}
    {literal : StringLiteral} (ht : ⟨.string literal, s⟩ ∈ visible (tokenize source).tokens)
    (found : .leaf s ∈ outlinesOf source) : Quote source (.leaf s) (ofSpan kind s modifiers) where
  shows h member := by
    have valid := (tokenize_valid source).1 _ (mem_tokens_of_visible ht) _ List.mem_cons_self
    exact ⟨literal, ht, .whole (fills_ofSpan valid member) fun _ _ ↦ found⟩
  ordered := by
    rw [ofSpan, nonempty]
    split
    · exact .nil
    · split
      · exact .nil
      · exact List.pairwise_singleton _ _

/-- A model is highlighted if it is a string, which is longer than what it says. -/
theorem Highlight.quote_ofModel {m : Ident}
    (read : Leaf.IsRead (visible (tokenize source).tokens) (.model m))
    (found : m.outline ∈ outlinesOf source) : Quote source m.outline (ofModel m) := by
  rw [ofModel]
  split
  · next longer =>
    rcases read with isName | ⟨literal, ht, -⟩
    · obtain ⟨before, c, inner, -, -, place, spelled⟩ := exists_stretch isName
      rw [spelled m.val rfl, show m.span = _ from place, Span.length] at longer
      simp only [Position.offset_after, utf8Length_append] at longer
      omega
    · exact quote_ofSpan ht found
  · exact ⟨fun _ member ↦ absurd member List.not_mem_nil, .nil⟩

private theorem Highlight.quote_ofString {s : StringLit} {kind : HighlightKind}
    (read : Leaf.IsRead (visible (tokenize source).tokens) (.string s))
    (found : s.outline ∈ outlinesOf source) : Quote source s.outline (ofString kind s) := by
  obtain ⟨literal, ht, same⟩ := read
  rw [← same] at found ⊢
  exact ⟨fun h member ↦ ⟨literal, ht, .piece rfl member found⟩, (strip_literal ht).ordered⟩

section

variable {a : Agent}

/-- The model of an agent is highlighted where it stands. -/
theorem AgentOf.model_mem_lends {m : Ident} (h : a.model = some m) :
    (m.outline, ofModel m) ∈ a.lends := by
  simp [lends, h]

/-- The prompt of an agent is highlighted where it stands. -/
theorem AgentOf.prompt_mem_lends {s : StringLit} (h : a.prompt = some s) :
    (s.outline, ofString .string s) ∈ a.lends := by
  simp [lends, h]

/-- Each skill of an agent is highlighted where it stands. -/
theorem AgentOf.skill_mem_lends {s : Ident} (h : s ∈ a.skills) :
    (s.outline, ofIdent .skill s []) ∈ a.lends :=
  List.mem_append_right _ (List.mem_map_of_mem h)

end

private theorem AgentOf.lends_sublist (a : Agent) : (a.lends.map Prod.fst).Sublist a.outlines := by
  simp only [lends, List.map_append, List.map_map, Function.comp_def]
  exact (List.sublist_cons_self a.name.outline _).trans (List.sublist_append_left _ _)

/-- The parts of the definition of an agent: its prompt, its permissions and its properties. -/
theorem Statement.visits_agent (inside : Visit → Bool) (a : Agent) :
    (Statement.agent a).visits inside = Visit.strings a.prompt
      ++ permissionVisits inside a.permissions ++ propertyVisits inside a.properties := rfl

/-- What an agent holds: its settings and its properties. -/
def AgentOf.parts (a : Agent) : List Outline :=
  a.outlines ++ ((a.permissions.getD []).map PropertyOf.outline
    ++ a.properties.map PropertyOf.outline)

private theorem AgentOf.outline_eq (a : Agent) :
    (Statement.agent a).outline = .node (some .agent) a.span a.parts [] := by
  rw [outline_agent, List.append_assoc]
  rfl

private theorem AgentOf.mem_nodes {a : Agent} {o q : Outline} (hq : q ∈ a.parts)
    (ho : o ∈ q.nodes) : o ∈ (Statement.agent a).outline.nodes := by
  refine Outline.mem_nodes.2 (.inr ⟨q, ?_, ho⟩)
  rwa [outline_eq, Outline.parts_node, Outline.row_node, List.append_nil]

private theorem AgentOf.lends_subset {a : Agent} {x : Outline × List Highlight} (hx : x ∈ a.lends) :
    x.1 ∈ a.outlines := a.lends_sublist.subset (List.mem_map_of_mem hx)

section

variable {a : Agent} (top : .agent a ∈ (parse source).program.statements)
include top

private theorem AgentOf.found_outlines : ∀ o ∈ a.outlines, o ∈ outlinesOf source := by
  have part : .statement (.agent a) ∈ (parse source).program.visits := statement_mem_bodyVisits top
  exact fun o ho ↦ Program.outlines_of_visits _ _ part (List.mem_cons_of_mem _ ho)

private theorem AgentOf.found_lends : ∀ x ∈ a.lends, x.1 ∈ outlinesOf source := fun _ hx ↦
  found_outlines top _ (lends_subset hx)

/-- What an agent lends is written as strings. -/
theorem AgentOf.quote_lends : ∀ x ∈ a.lends, Quote source x.1 x.2 := by
  have part : .statement (.agent a) ∈ (parse source).program.visits := statement_mem_bodyVisits top
  have read := Visit.isRead_of_mem_leaves part
  have found := found_lends top
  simp only [lends, List.forall_mem_append, List.forall_mem_map] at found ⊢
  obtain ⟨⟨model, prompt⟩, skills⟩ := found
  refine ⟨⟨fun m hm ↦ ?_, fun s hs ↦ ?_⟩, fun s hs ↦ ?_⟩
  · have leaf : .model m ∈ (Visit.statement (.agent a)).leaves := by
      simp [Option.mem_toList.1 hm]
    exact quote_ofModel (read _ leaf) (model m hm)
  · have inner : .string s ∈ (Visit.statement (.agent a)).within := by
      rw [Visit.within, Statement.visits_agent, Visit.strings, Option.mem_toList.1 hs]
      exact List.mem_append_left _ (List.mem_append_left _ List.mem_cons_self)
    have visit := bodyVisits_holdsWithin _ _ part inner
    exact quote_ofString (Visit.isRead_of_mem_leaves visit _ List.mem_cons_self) (prompt s hs)
  · obtain ⟨literal, ht, -⟩ := read (.quoted s) (by simp [hs])
    exact quote_ofSpan ht (skills s hs)

/-- The settings and the properties of an agent are apart. -/
theorem AgentOf.apart_parts : a.parts.Pairwise Outline.Apart := by
  have part : .statement (.agent a) ∈ (parse source).program.visits := statement_mem_bodyVisits top
  have own : (Statement.agent a).outline ∈ outlinesOf source :=
    Program.outlines_of_visits _ _ part List.mem_cons_self
  have apart := (sound_nodes source _ own).apart
  rwa [AgentOf.outline_eq, Outline.parts_node, Outline.row_node, List.append_nil] at apart

private theorem AgentOf.sound_below :
    ∀ o ∈ (Statement.agent a).outline.nodes, o.Sound (tokenize source).tokens := by
  intro o ho
  refine sound_nodes source o (Outline.mem_nodesOf.2 ⟨_, ?_, ho⟩)
  exact List.mem_flatMap.2 ⟨_, top, List.mem_cons_self⟩

omit top in
/-- Things that are apart do not start at one place. -/
theorem Outline.Apart.start_ne {o q : Outline} (h : o.Apart q) (ho : o ∈ outlinesOf source)
    (hq : q ∈ outlinesOf source) : o.span.start ≠ q.span.start := by
  intro same
  have room := (sound_nodes source o ho).room
  have room' := (sound_nodes source q hq).room
  rw [same] at room
  rcases h with before | after
  · omega
  · rw [same] at after
    omega

/-- What an agent lends is not highlighted otherwise by the agent. -/
theorem AgentOf.lends_alone {x y : Outline × List Highlight} (hx : x ∈ a.lends) (hy : y ∈ a.lends)
    {g h : Highlight} (hg : g ∈ x.2) (hh : h ∈ y.2) (same : g.samePlace h) : g = h := by
  have quoteX := quote_lends top x hx
  have quoteY := quote_lends top y hy
  obtain ⟨_, ht, shown⟩ := quoteX.shows g hg
  obtain ⟨_, hu, shown'⟩ := quoteY.shows h hh
  have place : x.1.span = y.1.span := congrArg Token.span (shown.eq_of_samePlace shown' ht hu same)
  have apart : a.lends.Pairwise fun x y ↦ x.1.Apart y.1 := by
    have settings := (List.pairwise_append.1 (apart_parts top)).1
    exact List.pairwise_map.1 (settings.sublist a.lends_sublist)
  have symmetric : Std.Symm fun x y : Outline × List Highlight ↦ x.1.Apart y.1 :=
    ⟨fun _ _ ↦ Outline.Apart.symm⟩
  have one : x = y := by
    by_contra other
    exact (apart.forall hx hy other).start_ne (found_lends top x hx) (found_lends top y hy)
      (congrArg Span.start place)
  subst one
  exact quoteX.eq_of_samePlace hg hh same

/-- What is highlighted where an agent is defined is lent or stands for no string. -/
theorem AgentOf.lends_or_stems {g : Highlight} (member : g ∈ (Statement.agent a).highlights) :
    (∃ x ∈ a.lends, g ∈ x.2) ∨ g.StemsFrom source [] := by
  have part : .statement (.agent a) ∈ (parse source).program.visits := statement_mem_bodyVisits top
  have read := Visit.isRead_of_mem_leaves part
  have own : (Statement.agent a).outline ∈ outlinesOf source :=
    Program.outlines_of_visits _ _ part List.mem_cons_self
  have keys : ∀ k ∈ a.keys, .key k ∈ (Visit.statement (.agent a)).leaves := fun k hk ↦ by simp [hk]
  simp only [Statement.highlights, List.mem_append] at member
  rcases member with (((opener | name) | key) | model) | skill
  · exact .inr (stems_opener own rfl g opener)
  · exact .inr (Located.stems_name read (by simp) g name)
  · exact .inr (Located.stems_keys read keys g key)
  · refine .inl ?_
    cases written : a.model with
    | none =>
      rw [written] at model
      cases model
    | some m =>
      rw [written] at model
      exact ⟨_, model_mem_lends written, model⟩
  · obtain ⟨s, hs, skill⟩ := List.mem_flatMap.1 skill
    exact .inl ⟨_, skill_mem_lends hs, skill⟩

/-- The parts of another statement are apart from an agent. -/
theorem AgentOf.apart_statement {s : Statement} (hs : s ∈ (parse source).program.statements)
    (other : s ≠ .agent a) {o x : Outline} (ho : o ∈ s.outline.nodes)
    (hx : x ∈ (Statement.agent a).outline.nodes) : o.Apart x := by
  obtain ⟨n, fits, ordered⟩ := strung_parse source
  have statements := (List.pairwise_flatMap.1 ordered).2
  have apart : (parse source).program.statements.Pairwise fun s t ↦ s.outline.Apart t.outline :=
    statements.imp fun before ↦ .inl (before _ List.mem_cons_self _ List.mem_cons_self)
  have symmetric : Std.Symm fun s t : Statement ↦ s.outline.Apart t.outline :=
    ⟨fun _ _ ↦ Outline.Apart.symm⟩
  have among {t : Statement} (ht : t ∈ (parse source).program.statements) :
      t.outline ∈ (parse source).program.outlines :=
    List.mem_flatMap.2 ⟨t, ht, List.mem_cons_self⟩
  exact (apart.forall hs top other).below (fits _ (among hs)).sound (fits _ (among top)).sound ho hx

/-- What is within the properties of an agent is apart from what the agent lends. -/
theorem AgentOf.apart_properties {x : Outline × List Highlight} (hx : x ∈ a.lends) {v : Visit}
    (hv : v ∈ permissionVisits everywhere a.permissions ++ propertyVisits everywhere a.properties)
    {o : Outline} (ho : o ∈ v.outlines) : o.Apart x.1 := by
  let P (o : Outline) : Prop := ∃ q ∈ (a.permissions.getD []).map PropertyOf.outline
    ++ a.properties.map PropertyOf.outline, o ∈ q.nodes
  have lies : v.Lies P := by
    rcases List.mem_append.1 hv with hv | hv
    · refine permissions_lie (P := P) a.permissions (fun q hq o ho ↦ ⟨q, ?_, ho⟩) v hv
      exact List.mem_append_left _ (permissionOutlines_eq _ ▸ hq)
    · refine properties_lie (P := P) a.properties (fun q hq o ho ↦ ⟨q, ?_, ho⟩) v hv
      exact List.mem_append_right _ (propertyOutlines_eq _ ▸ hq)
  obtain ⟨q, hq, below⟩ := lies o ho
  have apart := (List.pairwise_append.1 (apart_parts top)).2.2 x.1 (lends_subset hx) q hq
  have sound {p : Outline} (hp : p ∈ a.parts) : ∀ o ∈ p.nodes, o.Sound (tokenize source).tokens :=
    fun o ho ↦ sound_below top o (mem_nodes hp ho)
  exact apart.symm.below (sound (List.mem_append_right _ hq))
    (sound (List.mem_append_left _ (lends_subset hx))) below x.1.self_mem_nodes

/-- What an agent lends is not highlighted in another way anywhere in the program. -/
theorem AgentOf.alone {x : Outline × List Highlight} (hx : x ∈ a.lends) {h : Highlight}
    (hh : h ∈ x.2) {v : Visit} (hv : v ∈ (parse source).program.visits) {g : Highlight}
    (hg : g ∈ v.lasting) (same : h.samePlace g) : h = g := by
  obtain ⟨literal, ht, shown⟩ := (quote_lends top x hx).shows h hh
  obtain ⟨u, hu, shown', -, starts⟩ := Visit.stems hv g hg
  obtain rfl := shown.eq_of_samePlace shown' ht hu same
  obtain ⟨o, ho, start⟩ := starts literal rfl
  have found : o ∈ outlinesOf source := Program.outlines_of_visits _ v hv ho
  have notApart : ¬ o.Apart x.1 := fun apart ↦ apart.start_ne found (found_lends top x hx) start
  rcases exists_statement_of_mem_bodyVisits hv with rfl | ⟨s, hs, within⟩
  · cases ho
  by_cases own : s = .agent a
  · subst own
    rcases within with rfl | within
    · rcases lends_or_stems top hg with ⟨y, hy, member⟩ | ⟨u, hu, shown', -, none⟩
      · exact lends_alone top hx hy hh member same
      · obtain rfl := shown.eq_of_samePlace shown' ht hu same
        obtain ⟨_, nothing, -⟩ := none literal rfl
        cases nothing
    · rw [Statement.visits_agent, List.append_assoc] at within
      rcases List.mem_append.1 within with prompt | property
      · cases written : a.prompt with
        | none =>
          rw [written] at prompt
          cases prompt
        | some s =>
          rw [written] at prompt
          obtain rfl := List.mem_singleton.1 prompt
          exact lends_alone top hx (prompt_mem_lends written) hh hg same
      · exact absurd (apart_properties top hx property ho) notApart
  · have lies := s.lies_of_outline (P := (· ∈ s.outline.nodes)) fun o ho ↦ ho
    have below : o ∈ s.outline.nodes := by
      rcases within with rfl | within
      · exact lies.1 o ho
      · exact lies.2 v within o ho
    have inner := mem_nodes (List.mem_append_left _ (lends_subset hx)) x.1.self_mem_nodes
    exact absurd (apart_statement top hs own below inner) notApart

end

end ProseLang
