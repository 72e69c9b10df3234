import ProseLang.Proofs.Grammar.Forward
import ProseLang.Proofs.Grammar.Recovery
import ProseLang.Proofs.Grammar.Wording
import ProseLang.Proofs.Program.Spans

/-!
# Places of programs that are read

Every place in a program that is read stands in the text (`parse_valid`): the places of constructs
go from the edge of one token to that of another, those of leaves are places of tokens or within
tokens, and the program goes from its first token to the end of the text, since its statements are
read up to there (`Parser.rest_statements`). Of two constructs one holds the other, or they are
apart (`apart_or_below_parse`).
-/

namespace ProseLang

variable {source : String} {ts : List Token}

/-! ## Edges of tokens -/

private theorem Position.IsEdge.valid {p : Position} (h : p.IsEdge (tokenize source).tokens) :
    p.Valid source.toList := by
  obtain ⟨t, ht, s, hs, edge⟩ := h
  have place := (tokenize_valid source).1 t ht s hs
  rcases edge with rfl | rfl
  · exact place.starts
  · exact place.stops

private theorem Span.Anchored.valid {s : Span} (h : s.Anchored (tokenize source).tokens) :
    s.Valid source.toList :=
  ⟨h.starts.valid, h.stops.valid, h.forward⟩

/-- Whether a leaf may be written as a string. -/
def Leaf.IsQuoted : Leaf → Prop
  | quoted _ | model _ | string _ => True
  | _ => False

/-- Whether a leaf stands beside the constructs of a program. -/
def Leaf.IsAside : Leaf → Prop
  | comment _ | arrow _ => True
  | _ => False

/-- A leaf is read from one token, which is a string only if the leaf may be written as one, and
stands beside constructs only if the leaf does. -/
theorem Leaf.IsRead.exists_token {l : Leaf} (h : l.IsRead ts) :
    ∃ kind, ⟨kind, l.span⟩ ∈ ts ∧ (∀ literal, kind = .string literal → l.IsQuoted)
      ∧ (kind.isAside = true → l.IsAside) := by
  cases l with
  | comment x | arrow x => exact ⟨_, h, nofun, fun _ ↦ trivial⟩
  | name x | numeral x | operator x | keyword word x => exact ⟨_, h, nofun, nofun⟩
  | key x =>
    rcases h with h | ⟨word, h, -⟩
    · exact ⟨_, h, nofun, nofun⟩
    · exact ⟨_, h, nofun, nofun⟩
  | count x | discretion x =>
    obtain ⟨_, h, -⟩ := h
    exact ⟨_, h, nofun, nofun⟩
  | quoted x | string x =>
    obtain ⟨literal, h, -⟩ := h
    exact ⟨_, h, fun _ _ ↦ trivial, nofun⟩
  | model x =>
    rcases h with h | ⟨literal, h, -⟩
    · exact ⟨_, h, fun _ _ ↦ trivial, nofun⟩
    · exact ⟨_, h, fun _ _ ↦ trivial, nofun⟩

/-- A place among tokens is that of a token or of something in one. -/
theorem Leaf.IsRead.exists_place {l : Leaf} (h : l.IsRead ts) {s : Span} (hs : s ∈ l.spans) :
    ∃ t ∈ ts, s ∈ t.places := by
  obtain ⟨kind, own, -⟩ := h.exists_token
  cases l with
  | string x =>
    obtain ⟨literal, ht, same⟩ := h
    rcases List.mem_cons.1 hs with rfl | hs
    · exact ⟨_, own, List.mem_cons_self⟩
    · rw [← same, StringLit.ofLiteral, List.map_map] at hs
      exact ⟨_, ht, List.mem_cons_of_mem _ (List.mem_append_left _ hs)⟩
  | _ =>
    obtain rfl := List.mem_singleton.1 hs
    exact ⟨_, own, List.mem_cons_self⟩

/-! ## The end of a program -/

namespace Parser

variable {n : Nat} {c : Cursor} {statement : StatementParser}

/-- A round of statements outside of blocks stops at the end of the file only. -/
theorem rest_of_stop (inside : ∀ t ∈ c.rest, t.kind ≠ .endOfFile) {read d}
    (run : statementRound statement false c = ((read, .stop), d)) : d.rest = [] := by
  rw [statementRound_apply] at run
  split at run
  · next hk =>
    obtain rfl : c.skipNewlines = d := congrArg Prod.snd run
    cases hrest : c.skipNewlines.rest with
    | nil => rfl
    | cons t rest =>
      rw [Cursor.current_of_cons hrest] at hk
      have member : t ∈ c.rest := (Cursor.Follows.skip c _).suffix.subset
        (hrest ▸ List.mem_cons_self)
      exact absurd hk (inside t member)
  · cases run
  · cases run
  · cases run

/-- Statements are read up to the end of the file. -/
theorem rest_statements (h : Moves n (fun r ↦ ifNone 1 r.2) statement statement) (hc : c.Ahead n)
    (inside : ∀ t ∈ c.rest, t.kind ≠ .endOfFile) :
    (statements statement false c).2.rest = [] := by
  change (rounds (statementRound statement false) c).2.rest = []
  fun_induction rounds (statementRound statement false) c with
  | case1 c read d run => exact rest_of_stop inside run
  | case2 c read e d run =>
    have never := statementRound_ne_fail statement false c e
    rw [run] at never
    exact absurd rfl never
  | case3 c read d run shorter more e a rest ih =>
    obtain ⟨-, passes, takes⟩ := statementRound_moves false h c hc
    rw [run] at passes takes
    rw [rest] at ih
    refine ih (hc.passes (j := 0) passes passes.length_le) fun t ht ↦ ?_
    exact inside t (passes.suffix.subset ht)
  | case4 c read d run stuck =>
    obtain ⟨-, -, takes⟩ := statementRound_moves false h c hc
    rw [run] at takes
    exact absurd (Nat.lt_of_succ_le takes) stuck

end Parser

/-- The end of the file is where a text ends. -/
theorem current_readAll (source : String) :
    (readAll (depthOf source) (startOf source)).2.current
      = ⟨.endOfFile, .point (Position.start.after source.toList)⟩ := by
  have start := startOf_eq source
  have ahead : (startOf source).Ahead (depthOf source) := ⟨by rw [start], Nat.lt_succ_self _⟩
  have inside : ∀ t ∈ (startOf source).rest, t.kind ≠ .endOfFile := by
    rw [start]
    intro t ht
    exact (laid_readTokens source).1.kind_ne_endOfFile ht
  have forward : (Nested.upTo (depthOf source)).Forward (depthOf source)
    (.upTo (depthOf source)) := by
    rw [Nested.upTo_eq_atop]
    exact Nested.atop_forward _ _ (Nat.le_refl _) (Nat.le_refl _)
  have moves := forward.statement true
  have ends := Parser.rest_statements moves ahead inside
  have final := (Parser.statements_moves false moves _ ahead).passes.final
  change (Parser.statements _ false _).2.current = _
  rw [Cursor.current, ends, List.headD_nil, final, start]

/-! ## Outlines apart from each other -/

namespace Outline

variable {p q : Outline}

private theorem length_nodes_le {os : List Outline} {o : Outline} (h : o ∈ os) :
    o.nodes.length ≤ (nodesOf os).length := by
  induction os with
  | nil => cases h
  | cons r os ih =>
    rw [nodesOf, List.length_append]
    rcases List.mem_cons.1 h with rfl | h
    · exact Nat.le_add_right _ _
    · exact Nat.le_trans (ih h) (Nat.le_add_left _ _)

private theorem length_nodes (o : Outline) :
    o.nodes.length = (nodesOf (o.parts ++ o.row)).length + 1 := by
  rcases o with ⟨word, place, parts, row⟩
  have both : nodesOf (parts ++ row) = nodesOf parts ++ nodesOf row := by
    induction parts with
    | nil => rfl
    | cons o parts ih => rw [List.cons_append, nodesOf, ih, nodesOf, List.append_assoc]
  rw [nodes, parts_node, row_node, both, List.length_cons]

/-- What is below an outline lies within it. -/
theorem within_of_mem_nodes {o : Outline} (sound : ∀ p ∈ o.nodes, p.Sound ts) (hp : p ∈ o.nodes) :
    o.span.start.offset ≤ p.span.start.offset ∧ p.span.stop.offset ≤ o.span.stop.offset := by
  rcases mem_nodes.1 hp with rfl | ⟨c, hc, hp⟩
  · exact ⟨Nat.le_refl _, Nat.le_refl _⟩
  · have below : ∀ p ∈ c.nodes, p.Sound ts := fun p hp ↦ sound p (mem_nodes.2 (.inr ⟨c, hc, hp⟩))
    have inner := within_of_mem_nodes below hp
    have outer := Span.encloses_iff.1 ((sound o o.self_mem_nodes).within c hc)
    exact ⟨Nat.le_trans outer.1 inner.1, Nat.le_trans inner.2 outer.2⟩
termination_by o.nodes.length
decreasing_by
  have all := length_nodes_le hc
  rw [length_nodes o]
  omega

/-- What is below outlines that are apart is apart. -/
theorem Apart.below {o r : Outline} (h : o.Apart r) (soundO : ∀ p ∈ o.nodes, p.Sound ts)
    (soundR : ∀ p ∈ r.nodes, p.Sound ts) (hp : p ∈ o.nodes) (hq : q ∈ r.nodes) : p.Apart q := by
  have inO := within_of_mem_nodes soundO hp
  have inR := within_of_mem_nodes soundR hq
  rcases h with before | after
  · exact .inl (by omega)
  · exact .inr (by omega)

/-- Two outlines below some that are apart are apart, or one is below the other. -/
theorem apart_or_below {os : List Outline} (apart : os.Pairwise Apart)
    (sound : ∀ p ∈ nodesOf os, p.Sound ts) (hp : p ∈ nodesOf os) (hq : q ∈ nodesOf os) :
    p.Apart q ∨ p ∈ q.nodes ∨ q ∈ p.nodes := by
  obtain ⟨o, ho, hp⟩ := mem_nodesOf.1 hp
  obtain ⟨r, hr, hq⟩ := mem_nodesOf.1 hq
  have inside : ∀ c ∈ os, ∀ p ∈ c.nodes, p.Sound ts := fun c hc p hp ↦
    sound p (mem_nodesOf.2 ⟨c, hc, hp⟩)
  by_cases same : o = r
  · subst same
    rcases mem_nodes.1 hp with rfl | below
    · exact .inr (.inr hq)
    · rcases mem_nodes.1 hq with rfl | below'
      · exact .inr (.inl hp)
      · have children : ∀ p ∈ nodesOf (o.parts ++ o.row), p.Sound ts := fun p hp ↦
          inside o ho p (mem_nodes.2 (.inr (mem_nodesOf.1 hp)))
        exact apart_or_below (inside o ho o o.self_mem_nodes).apart children (mem_nodesOf.2 below)
          (mem_nodesOf.2 below')
  · have symmetric : Std.Symm Apart := ⟨fun _ _ ↦ Apart.symm⟩
    exact .inl ((apart.forall ho hr same).below (inside o ho) (inside r hr) hp hq)
termination_by (nodesOf os).length
decreasing_by
  have all := length_nodes_le ho
  rw [length_nodes] at all
  omega

end Outline

/-! ## Programs -/

/-- A program goes from its first token to the end of the text. -/
theorem valid_span (source : String) : (parse source).program.span.Valid source.toList := by
  have start := (orderly_startOf source).anchored_current.valid.starts
  have stop : (parse source).program.span.stop = Position.start.after source.toList := by
    change (readAll (depthOf source) (startOf source)).2.current.span.stop = _
    rw [current_readAll]
    rfl
  obtain ⟨before, after, text, place⟩ := start
  have place : (parse source).program.span.start = Position.start.after before := place
  refine ⟨⟨before, after, text, place⟩, ⟨source.toList, [], by simp, stop⟩, ?_⟩
  rw [place, stop, Position.offset_after, Position.offset_after, text, utf8Length_append]
  omega

private theorem valid_leaves (source : String) :
    ∀ l ∈ (parse source).program.leaves, ∀ s ∈ l.spans, s.Valid source.toList := by
  intro l hl s hs
  have read := leaves_parseTokens (tokenize source).tokens l hl
  obtain ⟨t, ht, place⟩ := read.exists_place hs
  exact (tokenize_valid source).1 t (mem_visible.1 ht).1 s place

/-- Whatever has an outline in a program is placed as readers place it. -/
theorem sound_nodes (source : String) :
    ∀ o ∈ Outline.nodesOf (parse source).program.outlines, o.Sound (tokenize source).tokens := by
  obtain ⟨n, fits, -⟩ := strung_parse source
  intro p hp
  obtain ⟨o, ho, hp⟩ := Outline.mem_nodesOf.1 hp
  exact (fits o ho).sound p hp

/-- Two outlines of a program are apart, or one is below the other. -/
theorem apart_or_below_parse (source : String) {p q : Outline}
    (hp : p ∈ Outline.nodesOf (parse source).program.outlines)
    (hq : q ∈ Outline.nodesOf (parse source).program.outlines) :
    p.Apart q ∨ p ∈ q.nodes ∨ q ∈ p.nodes := by
  obtain ⟨n, strung⟩ := strung_parse source
  exact Outline.apart_or_below (strung.ordered.imp .inl) (sound_nodes source) hp hq

private theorem valid_extents (source : String) :
    ∀ v ∈ (parse source).program.visits, ∀ s ∈ v.extents, s.Valid source.toList := by
  intro v hv s hs
  obtain ⟨o, ho, rfl⟩ := List.mem_map.1 (v.extents_subset hs)
  exact (sound_nodes source o (Program.outlines_of_visits _ v hv ho)).anchored.valid

/-- Every place in a program that is read, and every error of its grammar, stands in the text. -/
theorem parse_valid (source : String) :
    (∀ s ∈ (parse source).program.spans, s.Valid source.toList)
      ∧ ∀ e ∈ (parse source).errors, e.span.Valid source.toList := by
  refine ⟨?_, fun e he ↦ (anchored_errors source e he).valid⟩
  simp only [Program.spans, List.forall_mem_cons, List.forall_mem_append, List.forall_mem_map,
    List.forall_mem_flatMap, Visit.spans]
  refine ⟨valid_span source, fun c hc ↦ ?_, fun v hv ↦ ⟨valid_extents source v hv, fun l hl ↦ ?_⟩⟩
  · exact (tokenize_valid source).1 _ (mem_tokens_of_visible (mem_of_mem_commentsOf hc)) _
      List.mem_cons_self
  · exact valid_leaves source l (List.mem_flatMap.2 ⟨v, hv, hl⟩)

end ProseLang
