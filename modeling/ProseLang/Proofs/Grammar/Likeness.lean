import Mathlib.Data.List.Forall2
import ProseLang.Grammar.Parsing
import ProseLang.Proofs.Grammar.Progress
import ProseLang.Proofs.Grammar.Recovery
import ProseLang.Proofs.Program.Recast

/-!
# Streams that are read alike

The grammar looks at what tokens are and in which order they stand. A `Likeness` compares two
streams whose tokens say the same in different places; comments on lines of their own may be left
out of the second one. `Abreast` says that two cursors stand at the same token of two such streams,
with the same errors behind them, and `Echoes` that a parser comes to the same from both of them.

Where a comment stands that the second stream is without, a parser that looks for something else
fails, and the error names the comment. Such an error (`Likeness.Harms`) stays on the record, so a
parser that meets one is excused (`Mirrored`).
-/

namespace ProseLang

/-- Whether a fault says that a comment was found in the place of something else. -/
def GrammarFault.findsComment : GrammarFault → Bool
  | unexpected _ found => found = (TokenKind.comment "").describe
  | _ => false

/-- Whether a token of this kind may be part of what is read. -/
def TokenKind.isValid (x : TokenKind) : Bool := x.isPlain && x ≠ .invalid

/-- Whether tokens of a kind that are alike are the same. -/
def TokenKind.isExact : TokenKind → Bool
  | string _ | comment _ => false
  | _ => true

/-- What holds of tokens within a line. -/
theorem TokenKind.isPlain_facts {x : TokenKind} (h : x.isPlain = true) :
    x.isComment = false ∧ x.isLayout = false ∧ x.beforeOwnLine = false ∧ x ≠ .endOfFile := by
  cases x <;> simp_all [isPlain, isComment, isLayout, beforeOwnLine]

/-- How two streams are compared: what is kept of the places and comments on either side. -/
structure Likeness where
  left : Recast
  right : Recast
  /-- What makes a value on the right of one on the left. -/
  lift : Recast
  after_lift : right.after lift = left
  /-- Whether the stream on the right is without comments. -/
  drops : Bool
  comment_eq_none : ∀ c, left.comment c = none ↔ drops = true
  /-- The places of invalid tokens on the left. -/
  rejected : List Span
  /-- The places of invalid tokens on the right. -/
  rejected' : List Span
  mem_rejected : ∀ {s s'}, left.place s = right.place s' → (s ∈ rejected ↔ s' ∈ rejected')
  /-- Whether two tokens taken last may end at two positions. -/
  Ends : Position → Position → Prop
  ends_of_drops : drops = true → ∀ p q, Ends p q
  place_point : ∀ {p q}, Ends p q → left.place (.point p) = right.place (.point q)
  extent_nowhere : left.extent .nowhere = right.extent .nowhere
  extent_of_place : ∀ {s s'}, left.place s = right.place s' → left.extent s = right.extent s'
  extent_close : ∀ {s s' p q}, left.place s = right.place s' → Ends p q →
    left.extent ⟨s.start, p⟩ = right.extent ⟨s'.start, q⟩

namespace Likeness

variable (k : Likeness)

/-- Whether two values are the same but for their places and comments. -/
abbrev Like {α : Type} [Recastable α] (x x' : α) : Prop := recast k.left x = recast k.right x'

/-- Whether what starts where one of two tokens starts is at an invalid token on both sides or on
neither. -/
def Starts (first first' : Span) : Prop :=
  ∀ s s' : Span, s.start = first.start → s'.start = first'.start →
    k.left.extent s = k.right.extent s' → k.Like s s'

/-- Whether two tokens say the same. -/
structure Pairs (t t' : Token) : Prop where
  kind : k.Like t.kind t'.kind
  span : k.Like t.span t'.span
  ends : t.kind.isLayout = false → k.Ends t.span.stop t'.span.stop
  starts : t.kind.isValid = true → k.Starts t.span t'.span
  comment : ∀ text text', t.kind = .comment text → t'.kind = .comment text' →
    k.Like [Statement.comment ⟨text, t.span⟩] [.comment ⟨text', t'.span⟩]

/-- Whether a token is left out on the right. -/
def omits (t : Token) : Bool := k.drops && t.kind.isComment

/-- The tokens that are not left out. -/
def kept (ts : List Token) : List Token := ts.filter (!k.omits ·)

/-- Whether an error names a comment that is left out on the right. -/
structure Harms (e : ParseError) : Prop where
  drops : k.drops = true
  findsComment : e.fault.findsComment = true
  reported : e.span ∉ k.rejected

/-- Whether comments that are left out stand on lines of their own, at no invalid token and before
what may start a statement; `previous` is the token before that is not left out, and `begun` says
whether there is one that is no layout. -/
def Tidy : Option TokenKind → Bool → List Token → Prop
  | _, _, [] => True
  | previous, begun, t :: rest =>
    if k.omits t then
      previous.all TokenKind.beforeOwnLine = true ∧ t.span ∉ k.rejected
        ∧ (∀ u ∈ rest.head?, u.kind.isLayout = false ∧ u.kind ≠ .symbol .arrow
          ∧ (begun = true → u.kind ≠ .symbol .pipe))
        ∧ Tidy previous begun rest
    else Tidy (some t.kind) (begun || !t.kind.isLayout) rest

end Likeness

/-- What is known of two cursors. -/
structure Stage where
  /-- No comment that is left out on the right is next on the left. -/
  ready : Bool
  /-- The tokens before are alike. -/
  even : Bool
  /-- A token has been taken. -/
  begun : Bool
  /-- What the next tokens on the left are known to be. -/
  ahead : List TokenKind := []

namespace Stage

/-- In the middle of a line. -/
def level : Stage := ⟨true, true, true, []⟩

/-- After a line or a block. -/
def lax : Stage := ⟨false, true, true, []⟩

/-- Where a statement starts. -/
def fresh (begun : Bool) : Stage := ⟨true, false, begun, []⟩

/-- Anywhere. -/
def loose (begun : Bool) : Stage := ⟨false, false, begun, []⟩

/-- With the next tokens known. -/
def facing (a : Stage) (ahead : List TokenKind) : Stage := { a with ahead }

/-- After one token more of a line. -/
def onward (a : Stage) : Stage := level.facing a.ahead.tail

/-- After a token of a kind. -/
def past (a : Stage) (x : TokenKind) : Stage :=
  ⟨!x.beforeOwnLine, true, a.begun || !x.isLayout, a.ahead.tail⟩

/-- Whether a stage says all that another one says. -/
structure Covers (a b : Stage) : Prop where
  ready : b.ready = true → a.ready = true
  even : b.even = true → a.even = true
  begun : b.begun = true → a.begun = true
  ahead : b.ahead <+: a.ahead

/-- A stage says what it says. -/
theorem Covers.refl (a : Stage) : a.Covers a := ⟨id, id, id, List.prefix_refl _⟩

/-- Within a line, to know the tokens ahead is to know more. -/
theorem level_facing_covers (xs : List TokenKind) : (level.facing xs).Covers level :=
  ⟨id, id, id, List.nil_prefix⟩

/-- Within a line more is known than after it. -/
theorem level_covers_lax : level.Covers lax := ⟨nofun, id, id, List.nil_prefix⟩

/-- Within a line more is known than where a statement starts. -/
theorem level_covers_fresh (b : Bool) : level.Covers (fresh b) :=
  ⟨id, nofun, fun _ ↦ rfl, List.nil_prefix⟩

/-- Any stage says more than that the cursors are somewhere. -/
theorem covers_loose (a : Stage) : a.Covers (loose a.begun) := ⟨nofun, nofun, id, List.nil_prefix⟩

/-- After any token more is known than that the cursors are somewhere. -/
theorem past_covers_loose (a : Stage) (x : TokenKind) : (a.past x).Covers (loose a.begun) :=
  ⟨nofun, nofun, fun h ↦ Bool.or_eq_true_iff.2 (.inl h), List.nil_prefix⟩

/-- What has begun may be taken not to have begun. -/
theorem covers_loose_of_begun {a : Stage} (h : a.begun = true) (b : Bool) : a.Covers (loose b) :=
  ⟨nofun, nofun, fun _ ↦ h, List.nil_prefix⟩

/-- Whether a token has been taken at a stage if one has at an earlier one. -/
class Begins (a b : Stage) : Prop where
  begun : a.begun = true → b.begun = true

instance (a : Stage) : Begins a a := ⟨id⟩

instance (a : Stage) : Begins a level := ⟨fun _ ↦ rfl⟩

instance (a : Stage) : Begins a lax := ⟨fun _ ↦ rfl⟩

instance (a : Stage) : Begins a (fresh true) := ⟨fun _ ↦ rfl⟩

instance (a : Stage) : Begins a (loose true) := ⟨fun _ ↦ rfl⟩

instance (a : Stage) : Begins a (loose a.begun) := ⟨id⟩

instance (a b : Stage) : Begins a b.onward := ⟨fun _ ↦ rfl⟩

instance (a : Stage) (x : TokenKind) : Begins a (a.past x) :=
  ⟨fun h ↦ Bool.or_eq_true_iff.2 (.inl h)⟩

instance (a b : Stage) (xs : List TokenKind) [h : Begins a b] : Begins a (b.facing xs) := ⟨h.begun⟩

instance (a b : Stage) (xs : List TokenKind) [h : Begins a b] : Begins (a.facing xs) b := ⟨h.begun⟩

end Stage

/-- Whether two cursors stand at the same token of two streams that are read alike. -/
structure Abreast (k : Likeness) (a : Stage) (c c' : Cursor) : Prop where
  rest : List.Forall₂ k.Pairs (k.kept c.rest) c'.rest
  final : k.Pairs c.final c'.final
  final_kind : c.final.kind = .endOfFile
  errors : k.Like c.errors c'.errors
  rejected : c.rejected = k.rejected
  rejected' : c'.rejected = k.rejected'
  tidy : ∃ previous begun, k.Tidy previous begun c.rest ∧ (a.begun = true → begun = true)
  ready : a.ready = true → c.rest.head?.all (!k.omits ·) = true
  even : a.even = true → k.Like c.previous c'.previous
  begun : a.begun = true → k.Ends c.lastEnd c'.lastEnd
  ahead : a.ahead <+: (c.rest ++ [c.final]).map Token.kind

variable {k : Likeness}

namespace Likeness

variable {t t' : Token} {x x' : TokenKind}

private theorem kept_cons_of_omits (rest : List Token) (h : k.omits t = true) :
    k.kept (t :: rest) = k.kept rest := List.filter_cons_of_neg (by simpa using h)

private theorem kept_cons (rest : List Token) (h : k.omits t = false) :
    k.kept (t :: rest) = t :: k.kept rest := List.filter_cons_of_pos (by simpa using h)

/-- Where no comment is left out, nothing is. -/
theorem kept_of_not_drops (h : k.drops = false) (ts : List Token) : k.kept ts = ts :=
  List.filter_eq_self.2 fun t _ ↦ by simp [omits, h]

/-- Where nothing is left out, there is nothing to be tidy about. -/
theorem tidy_of_not_drops (h : k.drops = false) (previous : Option TokenKind) (begun : Bool)
    (ts : List Token) : k.Tidy previous begun ts := by
  induction ts generalizing previous begun with
  | nil => trivial
  | cons t ts ih =>
    rw [Tidy, if_neg (by simp [omits, h])]
    exact ih _ _

/-- Kinds of tokens that are alike are the same, but for what is within strings and comments. -/
theorem Like.cases (h : k.Like x x') : x = x'
    ∨ (∃ l l' : StringLiteral, x = .string l ∧ x' = .string l' ∧ k.Like l l')
    ∨ ∃ text text', x = .comment text ∧ x' = .comment text' := by
  cases x with
  | string l =>
    cases x' with
    | string l' => exact .inr (.inl ⟨l, l', rfl, rfl, TokenKind.string.inj h⟩)
    | _ => cases h
  | comment text =>
    cases x' with
    | comment text' => exact .inr (.inr ⟨text, text', rfl, rfl⟩)
    | _ => cases h
  | _ => cases x' <;> first | exact .inl h | cases h

/-- Of the kinds that are the same when alike, both tokens are or neither is. -/
theorem Like.eq_iff (h : k.Like x x') (kind : TokenKind) (exact : kind.isExact = true) :
    x = kind ↔ x' = kind := by
  rcases h.cases with rfl | ⟨l, l', rfl, rfl, -⟩ | ⟨text, text', rfl, rfl⟩
  · exact .rfl
  all_goals constructor <;> · rintro rfl; cases exact

private theorem Like.isLayout (h : k.Like x x') : x.isLayout = x'.isLayout := by
  rcases h.cases with rfl | ⟨l, l', rfl, rfl, -⟩ | ⟨text, text', rfl, rfl⟩ <;> rfl

/-- Both tokens are comments or neither is. -/
theorem Like.isComment (h : k.Like x x') : x.isComment = x'.isComment := by
  rcases h.cases with rfl | ⟨l, l', rfl, rfl, -⟩ | ⟨text, text', rfl, rfl⟩ <;> rfl

/-- Both tokens may be part of what is read or neither may. -/
theorem Like.isValid (h : k.Like x x') : x.isValid = x'.isValid := by
  rcases h.cases with rfl | ⟨l, l', rfl, rfl, -⟩ | ⟨text, text', rfl, rfl⟩ <;> rfl

/-- Both tokens end statements or neither does. -/
theorem Like.endsStatement (h : k.Like x x') : x.endsStatement = x'.endsStatement := by
  rcases h.cases with rfl | ⟨l, l', rfl, rfl, -⟩ | ⟨text, text', rfl, rfl⟩ <;> rfl

/-- Both tokens are called the same in messages. -/
theorem Like.describe (h : k.Like x x') : x.describe = x'.describe := by
  rcases h.cases with rfl | ⟨l, l', rfl, rfl, like⟩ | ⟨text, text', rfl, rfl⟩
  · rfl
  · have raw : (recast k.left l).raw = (recast k.right l').raw := congrArg StringLiteral.raw like
    change l.raw = l'.raw at raw
    rw [TokenKind.describe, TokenKind.describe, raw]
  · rfl

/-- What is the same but for its place has the same value. -/
theorem Like.val {α : Type} {y y' : Located α} (h : k.Like y y') : y.val = y'.val := by
  have same := congrArg Located.val h
  rwa [val_recast, val_recast] at same

/-- Whatever stands on the left, something like it may stand on the right. -/
theorem exists_like {α : Type} [Recastable α] (k : Likeness) (x : α) : ∃ x', k.Like x x' :=
  ⟨recast k.lift x, by rw [Like, recast_recast, k.after_lift]⟩

end Likeness

namespace Abreast

variable {a b : Stage} {c c' : Cursor} {t : Token} {ts : List Token} {x y : TokenKind}
  {xs : List TokenKind}

/-- Cursors abreast at a stage are abreast at any that says less. -/
theorem mono (h : Abreast k a c c') (hab : a.Covers b) : Abreast k b c c' :=
  { h with
    tidy := by
      obtain ⟨previous, begun, tidy, hbegun⟩ := h.tidy
      exact ⟨previous, begun, tidy, hbegun ∘ hab.begun⟩
    ready := h.ready ∘ hab.ready
    even := h.even ∘ hab.even
    begun := h.begun ∘ hab.begun
    ahead := hab.ahead.trans h.ahead }

/-- Cursors abreast are somewhere. -/
theorem loose (h : Abreast k a c c') : Abreast k (.loose a.begun) c c' := h.mono a.covers_loose

/-- The tokens at two cursors say the same, unless the one on the left is left out on the right. -/
theorem current_cases (h : Abreast k a c c') :
    (c.rest.head?.all (!k.omits ·) = true ∧ k.Pairs c.current c'.current)
      ∨ ∃ t ts, c.rest = t :: ts ∧ k.omits t = true := by
  have paired := h.rest
  cases hc : c.rest with
  | nil =>
    rw [hc] at paired
    have hc' : c'.rest = [] := List.forall₂_nil_left_iff.1 paired
    exact .inl ⟨rfl, by simpa [Cursor.current, hc, hc'] using h.final⟩
  | cons t ts =>
    cases ht : k.omits t with
    | true => exact .inr ⟨t, ts, rfl, ht⟩
    | false =>
      rw [hc, Likeness.kept_cons ts ht] at paired
      obtain ⟨t', ts', pair, -, hc'⟩ := List.forall₂_cons_left_iff.1 paired
      exact .inl ⟨by simp [ht], by simpa [Cursor.current, hc, hc'] using pair⟩

/-- Where no comment may be ahead, the current tokens say the same. -/
theorem current (h : Abreast k a c c') (ha : a.ready = true) : k.Pairs c.current c'.current := by
  rcases h.current_cases with ⟨-, pair⟩ | ⟨t, ts, hc, ht⟩
  · exact pair
  · simpa [hc, ht] using h.ready ha

/-- A token that is known to be ahead is current. -/
theorem kind_of_ahead (h : Abreast k a c c') (ha : a.ahead = x :: xs) : c.current.kind = x := by
  have before := h.ahead
  rw [ha] at before
  cases hc : c.rest with
  | nil =>
    rw [hc] at before
    simpa [Cursor.current, hc] using (List.cons_prefix_cons.1 before).1.symm
  | cons t ts =>
    rw [hc] at before
    simpa [Cursor.current, hc] using (List.cons_prefix_cons.1 before).1.symm

/-- The other stream ends with the end of the file, too. -/
theorem final_kind' (h : Abreast k a c c') : c'.final.kind = .endOfFile := by
  rw [← h.final.kind.eq_iff .endOfFile rfl, h.final_kind]

/-- The current token is known to be ahead. -/
theorem facing_current (h : Abreast k a c c') : Abreast k (a.facing [c.current.kind]) c c' :=
  { h with
    ahead := by
      cases hc : c.rest <;> simp [Stage.facing, Cursor.current, hc] }

/-- Before the end of the file a token is ahead. -/
theorem ne_nil (h : Abreast k a c c') (hk : c.current.kind ≠ .endOfFile) : c.rest ≠ [] := by
  intro hc
  rw [Cursor.current, hc] at hk
  exact hk h.final_kind

/-- Where a comment is left out on the right, it is what is found on the left. -/
theorem harms (h : Abreast k a c c') (hc : c.rest = t :: ts) (ht : k.omits t = true)
    (expected : String) :
    k.Harms ⟨.unexpected expected c.current.kind.describe, c.current.span⟩ := by
  obtain ⟨previous, begun, tidy, -⟩ := h.tidy
  rw [hc, Likeness.Tidy, if_pos ht] at tidy
  obtain ⟨drops, comment⟩ := Bool.and_eq_true_iff.1 ht
  have current : c.current = t := Cursor.current_of_cons hc
  refine ⟨drops, ?_, by rw [current]; exact tidy.2.1⟩
  rw [current]
  cases hk : t.kind <;> simp [hk, TokenKind.isComment] at comment ⊢
  rfl

/-- Where a comment is left out on the right, the cursor on the left passes it alone. -/
theorem pass (h : Abreast k a c c') (hc : c.rest = t :: ts) (ht : k.omits t = true) :
    Abreast k (.loose a.begun) c.advance c' := by
  obtain ⟨drops, comment⟩ := Bool.and_eq_true_iff.1 ht
  obtain ⟨previous, begun, tidy, hbegun⟩ := h.tidy
  have paired := h.rest
  rw [hc] at tidy paired
  rw [Likeness.Tidy, if_pos ht] at tidy
  rw [Likeness.kept_cons_of_omits ts ht] at paired
  rw [Cursor.advance, hc]
  exact { h with
    rest := paired
    tidy := ⟨previous, begun, tidy.2.2.2, hbegun⟩
    ready := (absurd · Bool.false_ne_true)
    even := (absurd · Bool.false_ne_true)
    begun := fun _ ↦ k.ends_of_drops drops _ _
    ahead := List.nil_prefix }

/-- Nothing that is left out follows a token within a line. -/
theorem head_of_plain {begun : Bool} (hk : x.beforeOwnLine = false) (h : k.Tidy (some x) begun ts) :
    ts.head?.all (!k.omits ·) = true := by
  cases ts with
  | nil => rfl
  | cons u ts =>
    cases hu : k.omits u with
    | false => simp [hu]
    | true =>
      rw [Likeness.Tidy, if_pos hu] at h
      have ownLine := h.1
      rw [Option.all_some, hk] at ownLine
      cases ownLine

/-- Both cursors take a token. -/
theorem advance (h : Abreast k a c c') (hnext : c.rest.head?.all (!k.omits ·) = true)
    (hne : c.rest ≠ []) : Abreast k (a.past c.current.kind) c.advance c'.advance := by
  obtain ⟨previous, begun, tidy, hbegun⟩ := h.tidy
  have paired := h.rest
  have before := h.ahead
  obtain ⟨t, ts, hc⟩ := List.exists_cons_of_ne_nil hne
  have ht : k.omits t = false := by simpa [hc] using hnext
  rw [Cursor.current_of_cons hc]
  rw [hc, Likeness.kept_cons ts ht] at paired
  obtain ⟨t', ts', pair, paired, hc'⟩ := List.forall₂_cons_left_iff.1 paired
  have layout : t.kind.isLayout = t'.kind.isLayout := pair.kind.isLayout
  rw [hc] at tidy before
  rw [Likeness.Tidy, if_neg (by simp [ht])] at tidy
  rw [Cursor.advance, Cursor.advance, hc, hc']
  refine { h with
    rest := paired
    tidy := ⟨_, _, tidy, fun past ↦ ?_⟩
    ready := fun plain ↦ head_of_plain (by simpa [Stage.past] using plain) tidy
    even := fun _ ↦ congrArg some pair.kind
    begun := ?_
    ahead := ?_ }
  · exact Bool.or_eq_true_iff.2 ((Bool.or_eq_true_iff.1 past).imp_left hbegun)
  · intro begun
    dsimp only
    rw [← layout]
    cases hl : t.kind.isLayout with
    | true => exact h.begun (by simpa [Stage.past, hl] using begun)
    | false => exact pair.ends hl
  · change a.ahead.tail <+: (ts ++ [c.final]).map Token.kind
    cases ha : a.ahead with
    | nil => exact List.nil_prefix
    | cons x xs =>
      rw [ha] at before
      exact (List.cons_prefix_cons.1 before).2

/-- What is known to be next is no comment. -/
theorem ready_of_ahead (h : Abreast k a c c') (ha : a.ahead = x :: xs) (hx : x.isComment = false) :
    c.rest.head?.all (!k.omits ·) = true := by
  have current := h.kind_of_ahead ha
  cases hc : c.rest with
  | nil => rfl
  | cons t ts =>
    rw [Cursor.current_of_cons hc] at current
    simp [Likeness.omits, current, hx]

/-- What comes after comments that are left out is not layout and goes on with nothing. -/
theorem current_after_comments (h : Abreast k a c c') (hc : c.rest = t :: ts)
    (ht : k.omits t = true) : c'.current.kind = .endOfFile
      ∨ c'.current.kind.isLayout = false ∧ c'.current.kind ≠ .symbol .arrow
        ∧ (a.begun = true → c'.current.kind ≠ .symbol .pipe) := by
  obtain ⟨previous, begun, tidy, hbegun⟩ := h.tidy
  have paired := h.rest
  rw [hc] at tidy paired
  rw [Likeness.kept_cons_of_omits ts ht] at paired
  clear hc
  induction ts generalizing t with
  | nil =>
    have hc' : c'.rest = [] := List.forall₂_nil_left_iff.1 paired
    exact .inl (by rw [Cursor.current, hc']; exact h.final_kind')
  | cons u ts ih =>
    rw [Likeness.Tidy, if_pos ht] at tidy
    cases hu : k.omits u with
    | true =>
      rw [Likeness.kept_cons_of_omits ts hu] at paired
      exact ih hu tidy.2.2.2 paired
    | false =>
      rw [Likeness.kept_cons ts hu] at paired
      obtain ⟨u', ts', pair, -, hc'⟩ := List.forall₂_cons_left_iff.1 paired
      obtain ⟨plain, arrow, pipe⟩ := tidy.2.2.1 u rfl
      rw [Cursor.current_of_cons hc', ← pair.kind.isLayout, Ne, Ne,
        ← pair.kind.eq_iff (.symbol .arrow) rfl, ← pair.kind.eq_iff (.symbol .pipe) rfl]
      exact .inr ⟨plain, arrow, pipe ∘ hbegun⟩

/-- Nothing goes on with a bar or an arrow after comments that are left out. -/
theorem mark_iff (h : Abreast k a c c') {mark : Punctuation}
    (hmark : mark = .arrow ∨ mark = .pipe ∧ a.begun = true) :
    c.current.kind = .symbol mark ↔ c'.current.kind = .symbol mark := by
  rcases h.current_cases with ⟨-, pair⟩ | ⟨t, ts, hc, ht⟩
  · exact pair.kind.eq_iff (.symbol mark) rfl
  · have comment := (Bool.and_eq_true_iff.1 ht).2
    have here : c.current.kind ≠ .symbol mark := by
      rw [Cursor.current_of_cons hc]
      intro hk
      rw [hk] at comment
      cases comment
    refine iff_of_false here ?_
    rcases h.current_after_comments hc ht with last | ⟨-, arrow, pipe⟩
    · rw [last]
      nofun
    · rcases hmark with rfl | ⟨rfl, begun⟩
      · exact arrow
      · exact pipe begun

/-! ## Recording and going on -/

/-- An error is recorded on both sides or on neither. -/
theorem report (h : Abreast k a c c') {e e' : ParseError} (he : k.Like e e') :
    Abreast k a (c.report e) (c'.report e') := by
  have span : k.Like e.span e'.span := congrArg ParseError.span he
  have known := k.mem_rejected span
  rw [← h.rejected, ← h.rejected'] at known
  unfold Cursor.report
  by_cases he' : e.span ∈ c.rejected
  · rw [if_pos (by simpa using he'), if_pos (by simpa using known.1 he')]
    exact h
  · rw [if_neg (by simpa using he'), if_neg (by simpa using mt known.2 he')]
    have both : k.Like (c.errors ++ [e]) (c'.errors ++ [e']) := by
      rw [Likeness.Like, recast_append, recast_append]
      exact congrArg₂ _ h.errors (congrArg ([·]) he)
    exact { h with errors := both }

/-- Layout that is next on one side is next on the other. -/
theorem layout_iff (h : Abreast k a c c') (hx : x.isLayout = true) (hend : x ≠ .endOfFile) :
    c.current.kind = x ↔ c'.current.kind = x := by
  rcases h.current_cases with ⟨-, pair⟩ | ⟨t, ts, hc, ht⟩
  · exact pair.kind.eq_iff x (by cases x <;> first | rfl | cases hx)
  · have omitted := (Bool.and_eq_true_iff.1 ht).2
    rw [Cursor.current_of_cons hc]
    constructor
    · rintro rfl
      cases hk : t.kind <;> simp [hk, TokenKind.isComment, TokenKind.isLayout] at omitted hx
    · rintro rfl
      rcases h.current_after_comments hc ht with last | ⟨plain, -⟩
      · exact absurd last hend
      · rw [hx] at plain
        cases plain

private theorem indent_iff (h : c.final.kind = .endOfFile) :
    c.current.kind = .indent ↔ c.rest.head?.map Token.kind = some .indent := by
  cases hc : c.rest with
  | nil => simp [Cursor.current, hc, h]
  | cons t ts => simp [Cursor.current, hc]

/-- What fails is left behind up to the same token. -/
theorem skip_failed (h : Abreast k a c c') (depth : Nat) :
    Abreast k (.loose a.begun) (c.skip (Cursor.failedLength depth c.rest))
      (c'.skip (Cursor.failedLength depth c'.rest)) := by
  replace h := h.loose
  generalize a.begun = begun at h ⊢
  generalize hc : c.rest = ts
  induction ts generalizing c c' depth with
  | nil =>
    have paired := h.rest
    rw [hc] at paired
    rw [List.forall₂_nil_left_iff.1 paired]
    exact h
  | cons t ts ih =>
    rcases h.current_cases with ⟨hnext, pair⟩ | ⟨u, us, hu, omitted⟩
    · have paired := h.rest
      rw [hc, Likeness.kept_cons ts (by simpa [hc] using hnext)] at paired
      obtain ⟨t', ts', -, -, hc'⟩ := List.forall₂_cons_left_iff.1 paired
      have next := h.advance hnext (hc ▸ List.cons_ne_nil t ts)
      rw [Cursor.current_of_cons hc] at pair next
      rw [Cursor.current_of_cons hc'] at pair
      have later := (Stage.loose begun).past_covers_loose t.kind
      have heads : (ts.head?.map Token.kind == some .indent)
          = (ts'.head?.map Token.kind == some .indent) := by
        have same : c.advance.current.kind = .indent ↔ c'.advance.current.kind = .indent :=
          next.layout_iff rfl nofun
        rw [indent_iff next.final_kind, indent_iff next.final_kind',
          Cursor.rest_advance hc, Cursor.rest_advance hc'] at same
        rw [Bool.eq_iff_iff, beq_iff_eq, beq_iff_eq, same]
      have on (depth : Nat) : Abreast k (.loose begun)
          (c.skip (Cursor.failedLength depth ts + 1))
            (c'.skip (Cursor.failedLength depth ts' + 1)) := by
        have both := ih depth (next.mono later) (Cursor.rest_advance hc)
        rwa [Cursor.rest_advance hc'] at both
      rw [hc']
      rcases pair.kind.cases with same | ⟨l, l', hl, hl', -⟩ | ⟨text, text', hl, hl'⟩
      · rw [Cursor.failedLength.eq_def, Cursor.failedLength.eq_def]
        dsimp only
        rw [← same, heads]
        split
        · split
          · exact next.mono later
          · exact on depth
        · exact on (depth + 1)
        · split
          · exact h
          · exact next.mono later
          · exact on _
        · exact on depth
      · simpa [Cursor.failedLength, hl, hl'] using on depth
      · simpa [Cursor.failedLength, hl, hl'] using on depth
    · obtain ⟨rfl, rfl⟩ : t = u ∧ ts = us := by simpa [hc] using hu
      have length : Cursor.failedLength depth (t :: ts) = Cursor.failedLength depth ts + 1 := by
        have comment := (Bool.and_eq_true_iff.1 omitted).2
        cases hk : t.kind <;> simp [hk, TokenKind.isComment] at comment
        simp [Cursor.failedLength, hk]
      rw [length, Cursor.skip]
      exact ih depth (h.pass hc omitted) (Cursor.rest_advance hc)

/-- Cursors abreast are so again where parsing resumes. -/
theorem recover (h : Abreast k a c c') {e e' : ParseError} (he : k.Like e e') :
    Abreast k (.loose a.begun) (c.recover e) (c'.recover e') := by
  have both := (h.report he).skip_failed 0
  exact both

/-- Cursors abreast are so behind ends of lines. -/
theorem skipNewlines (h : Abreast k a c c') :
    Abreast k (.loose a.begun) c.skipNewlines c'.skipNewlines := by
  replace h := h.loose
  generalize a.begun = begun at h ⊢
  generalize hc : c.rest = ts
  induction ts generalizing c c' with
  | nil =>
    have paired := h.rest
    rw [hc] at paired
    rw [Cursor.skipNewlines, Cursor.skipNewlines, hc, List.forall₂_nil_left_iff.1 paired]
    exact h
  | cons t ts ih =>
    have same := h.layout_iff (x := .newline) rfl (by simp)
    by_cases hk : c.current.kind = .newline
    · have hnext : c.rest.head?.all (!k.omits ·) = true := by
        rw [Cursor.current_of_cons hc] at hk
        simp [hc, Likeness.omits, hk, TokenKind.isComment]
      obtain ⟨t', ts', hc'⟩ := List.exists_cons_of_ne_nil (l := c'.rest) fun nil ↦ by
        have := same.1 hk
        rw [Cursor.current, nil, List.headD_nil, h.final_kind'] at this
        cases this
      have next := (h.advance hnext (hc ▸ List.cons_ne_nil t ts)).mono (Stage.past_covers_loose _ _)
      have later := ih next (Cursor.rest_advance hc)
      have hk' := same.1 hk
      rw [Cursor.current_of_cons hc] at hk
      rw [Cursor.current_of_cons hc'] at hk'
      rw [Cursor.skipNewlines, Cursor.skipNewlines, Cursor.rest_advance hc, Cursor.rest_advance hc']
        at later
      simpa [Cursor.skipNewlines, hc, hc', hk, hk', Cursor.skip] using later
    · have hk' := mt same.2 hk
      have stays (d : Cursor) (hd : d.current.kind ≠ .newline) : d.skipNewlines = d :=
        Parser.skipNewlines_of_head fun u hu ↦ by
          cases hr : d.rest with
          | nil => simp [hr] at hu
          | cons v vs => 
            obtain rfl : v = u := by simpa [hr] using hu
            rwa [Cursor.current_of_cons hr] at hd
      rw [stays c hk, stays c' hk']
      exact h

/-- Cursors abreast are so behind comments, with a token ahead that says the same. -/
theorem skipComments (h : Abreast k a c c') :
    Abreast k (.fresh a.begun) c.skipComments c'.skipComments := by
  replace h := h.loose
  generalize a.begun = begun at h ⊢
  generalize hc : c.rest = ts
  induction ts generalizing c c' with
  | nil =>
    have paired := h.rest
    rw [hc] at paired
    rw [Cursor.skipComments, Cursor.skipComments, hc, List.forall₂_nil_left_iff.1 paired]
    exact { h with ready := fun _ ↦ by simp [Cursor.skip, hc] }
  | cons t ts ih =>
    have moves (hk : t.kind.isComment = true) : c.skipComments = c.advance.skipComments := by
      simp [Cursor.skipComments, hc, hk, Cursor.skip, Cursor.rest_advance hc]
    rcases h.current_cases with ⟨hnext, pair⟩ | ⟨u, us, hu, omitted⟩
    · have paired := h.rest
      rw [hc, Likeness.kept_cons ts (by simpa [hc] using hnext)] at paired
      obtain ⟨t', ts', -, -, hc'⟩ := List.forall₂_cons_left_iff.1 paired
      rw [Cursor.current_of_cons hc, Cursor.current_of_cons hc'] at pair
      have same := pair.kind.isComment
      cases hk : t.kind.isComment with
      | true =>
        have next := (h.advance hnext (hc ▸ List.cons_ne_nil t ts)).mono
          (Stage.past_covers_loose _ _)
        have moves' : c'.skipComments = c'.advance.skipComments := by
          simp [Cursor.skipComments, hc', ← same, hk, Cursor.skip, Cursor.rest_advance hc']
        rw [moves hk, moves']
        exact ih next (Cursor.rest_advance hc)
      | false =>
        have stays : c.skipComments = c := by simp [Cursor.skipComments, hc, hk, Cursor.skip]
        have stays' : c'.skipComments = c' := by
          simp [Cursor.skipComments, hc', ← same, hk, Cursor.skip]
        rw [stays, stays']
        exact { h with ready := fun _ ↦ hnext }
    · obtain ⟨rfl, rfl⟩ : t = u ∧ ts = us := by simpa [hc] using hu
      rw [moves (Bool.and_eq_true_iff.1 omitted).2]
      exact ih (h.pass hc omitted) (Cursor.rest_advance hc)

private theorem comesNext_iff (h : c.final.kind = .endOfFile) (word : Keyword) :
    c.comesNext (.keyword word) = true ↔ c.skipComments.current.kind = .keyword word := by
  refine ⟨fun comes ↦ (Cursor.current_skipComments comes).1, fun hk ↦ ?_⟩
  have head := Cursor.head?_drop_comments c.rest
  rw [← Cursor.rest_skip] at head
  change c.skipComments.rest.head? = _ at head
  rw [Cursor.comesNext, ← head]
  rw [Cursor.current] at hk
  cases hr : c.skipComments.rest with
  | nil =>
    have final : c.skipComments.final = c.final := (Cursor.Passes.skip c _).final
    rw [hr, List.headD_nil, final, h] at hk
    cases hk
  | cons t ts => simpa [hr] using hk

/-- A reserved word comes after comments on both sides or on neither. -/
theorem comesNext_eq (h : Abreast k a c c') (word : Keyword) :
    c.comesNext (.keyword word) = c'.comesNext (.keyword word) := by
  have same := (h.skipComments.current rfl).kind.eq_iff (.keyword word) rfl
  rw [Bool.eq_iff_iff, comesNext_iff h.final_kind, comesNext_iff h.final_kind', same]

/-- A token within a line is followed by the same kind of token on both sides. -/
theorem next (h : Abreast k a c c') (ha : a.ready = true)
    (hk : c.current.kind.beforeOwnLine = false) (hend : c.current.kind ≠ .endOfFile) :
    k.Pairs c.next c'.next ∧ Abreast k (a.facing [c.current.kind, c.next.kind]) c c' := by
  have hne := h.ne_nil hend
  have hne' : c'.rest ≠ [] := fun nil ↦ by
    have same := ((h.current ha).kind.eq_iff .endOfFile rfl).2
    rw [Cursor.current, nil] at same
    exact hend (same h.final_kind')
  have after := h.advance (h.ready ha) hne
  have ready : (a.past c.current.kind).ready = true := by simp [Stage.past, hk]
  rw [← Cursor.current_advance hne, ← Cursor.current_advance hne']
  refine ⟨after.current ready, { h with ahead := ?_ }⟩
  obtain ⟨t, ts, hc⟩ := List.exists_cons_of_ne_nil hne
  rw [Cursor.current_advance hne]
  cases ts <;> simp [Stage.facing, Cursor.current, Cursor.next, hc]

/-- A block opens on both sides or on neither. -/
theorem atBlock_eq (h : Abreast k a c c') : c.atBlock = c'.atBlock := by
  have same : c.current.kind = .newline ↔ c'.current.kind = .newline := h.layout_iff rfl (by simp)
  rw [Cursor.atBlock, Cursor.atBlock]
  by_cases hk : c.current.kind = .newline
  · have hk' := same.1 hk
    have hne := h.ne_nil (by simp [hk])
    have hne' : c'.rest ≠ [] := fun nil ↦ by
      rw [Cursor.current, nil, List.headD_nil, h.final_kind'] at hk'
      cases hk'
    have hnext : c.rest.head?.all (!k.omits ·) = true :=
      ready_of_ahead h.facing_current rfl (by rw [hk]; rfl)
    have indents : c.advance.current.kind = .indent ↔ c'.advance.current.kind = .indent :=
      (h.advance hnext hne).layout_iff rfl (by simp)
    rw [Cursor.current_advance hne, Cursor.current_advance hne'] at indents
    simp [hk, hk', indents]
  · simp [hk, mt same.2 hk]

/-- Where a block opens the next two tokens are known. -/
theorem facing_block (h : Abreast k a c c') (hb : c.atBlock = true) :
    Abreast k (a.facing [.newline, .indent]) c c' := by
  obtain ⟨hk, hn⟩ := Bool.and_eq_true_iff.1 hb
  have hk := of_decide_eq_true hk
  have hn := of_decide_eq_true hn
  obtain ⟨t, ts, hc⟩ := List.exists_cons_of_ne_nil (h.ne_nil (by rw [hk]; nofun))
  rw [Cursor.current_of_cons hc] at hk
  refine { h with ahead := ?_ }
  cases ts <;> simp_all [Stage.facing, Cursor.next]

end Abreast

end ProseLang
