import ProseLang.Proofs.Validation.Usage

/-!
# Results that are only taken to be used

A check takes the result of a statement to be used if the next statement has a session without a
context somewhere in it. This errs on one side only: as long as nothing that is handed down is
declared anew on the way, whatever a session is given counts as used (`Program.usages_sound`). A
binding may be overlooked, as one that no session is given although a check takes it to be used
(`Usage.Overlooks`); these are all the bindings that a check does not report while nothing uses them
(`Usage.leaves_due_iff`).
-/

namespace ProseLang

open Check (isOpenSession outsideSessions)

/-! ## Environments -/

namespace Env

/-- A scope that starts with some names has the first declaration of each. -/
theorem enter_eq (Γ : Env) (kind : SymbolKind) (names : List Ident) :
    Γ.enter kind names
      = (fun x ↦ (names.find? (·.val = x)).map fun name ↦ ⟨kind, name.span⟩) :: Γ := by
  have each (scope : String → Option Declaration) :
      names.foldl (fun Δ name ↦ Env.bind Δ name kind) (scope :: Γ)
        = (fun x ↦ (scope x).or ((names.find? (·.val = x)).map fun name ↦ ⟨kind, name.span⟩)) ::
          Γ := by
    induction names generalizing scope with
    | nil => simp
    | cons name names ih =>
      refine (ih (extend scope name kind)).trans ?_
      congr 1
      funext x
      rw [extend, Option.or_assoc, List.find?_cons]
      congr 1
      by_cases same : name.val = x <;> simp [same]
  exact each emptyScope

/-- Whether there are no fewer scopes and names, but for some, stand for the let and const bindings
that they stand for before. -/
structure Keeps (names : List String) (Γ Γ' : Env) : Prop where
  depth : Γ.length ≤ Γ'.length
  holder : ∀ x, x ∉ names → Γ'.holder? x = Γ.holder? x

namespace Keeps

variable {Γ Γ' Γ'' : Env} {names names' : List String}

private theorem refl (names : List String) (Γ : Env) :
    Keeps names Γ Γ := ⟨Nat.le_refl _, fun _ _ ↦ rfl⟩

private theorem trans (h : Keeps names Γ Γ') (h' : Keeps names' Γ' Γ'') :
    Keeps (names ++ names') Γ Γ'' where
  depth := Nat.le_trans h.depth h'.depth
  holder x apart := by
    obtain ⟨first, second⟩ := not_or.1 (mt List.mem_append.2 apart)
    exact (h'.holder x second).trans (h.holder x first)

private theorem bind (Γ : Env) (name : Ident) (kind : SymbolKind) :
    Keeps [name.val] Γ (Γ.bind name kind) where
  depth := by
    rw [Env.bind, List.length_cons, List.length_tail]
    omega
  holder x apart := by
    rw [holder?, locate_bind kind (List.ne_of_not_mem_cons apart).symm, holder?]

/-- A name that means nothing before and does not become a let or const binding. -/
theorem bindNew {name : Ident} {kind : SymbolKind} (free : Γ.resolve name.val = none)
    (plain : kind.isBinding = false) : Keeps names Γ (Γ.bind name kind) where
  depth := (bind Γ name kind).depth
  holder x _ := by
    by_cases same : name.val = x
    · subst same
      have unbound : Γ.locate name.val = none := by
        rw [← Option.not_isSome_iff_eq_none, Env.isSome_locate, free]
        exact Bool.false_ne_true
      have here : (Γ.bind name kind).locate name.val = some (Γ.tail.length, ⟨kind, name.span⟩) := by
        have missing : Γ.headD emptyScope name.val = none := lacks_of_resolve free
        rw [Env.bind, locate, extend, missing, if_pos rfl]
        rfl
      rw [holder?, holder?, unbound, here]
      simp [bindingScope?, plain]
    · exact (bind Γ name kind).holder x (by simpa using Ne.symm same)

private theorem enter (Γ : Env) (kind : SymbolKind) (names : List Ident) :
    Keeps (names.map Located.val) Γ (Γ.enter kind names) where
  depth := by
    rw [enter_eq]
    exact Nat.le_succ _
  holder x apart := by rw [holder?, locate_enter kind apart, holder?]

end Keeps

/-- A construct does not introduce let and const bindings for its body. -/
theorem holder?_enter_of_mem (Γ : Env) {kind : SymbolKind} (plain : kind.isBinding = false)
    {names : List Ident} {x : String} (h : x ∈ names.map Located.val) :
    (Γ.enter kind names).holder? x = none := by
  obtain ⟨name, member, same⟩ := List.mem_map.1 h
  have found : (names.find? (·.val = x)).isSome = true :=
    List.find?_isSome.2 ⟨name, member, by simpa using same⟩
  obtain ⟨first, is⟩ := Option.isSome_iff_exists.1 found
  rw [enter_eq, holder?, locate, is]
  simp [bindingScope?, plain]

end Env

mutual

/-- A statement changes what names stand for only by what it introduces. -/
theorem Statement.keeps_envAfter (isBranch : Bool) (Γ : Env) :
    (s : Statement) → Env.Keeps s.introduces Γ (s.envAfter isBranch Γ)
  | .binding kind ⟨name, _, _⟩ => .bind Γ name kind.symbolKind
  | .assignment ⟨name, _, _⟩ => by
    rw [Statement.envAfter]
    split
    · next new => exact .bindNew (Option.isNone_iff_eq_none.1 (Bool.and_eq_true_iff.1 new).2) rfl
    · exact .refl _ Γ
  | .action (.session s) => by
    rw [Statement.envAfter]
    split
    · next name named =>
      have same : (Statement.action (.session s)).introduces = [name.val] := by
        simp [Statement.introduces, Action.resultName?, named]
      exact same ▸ .bind Γ name .session
    · exact .refl _ Γ
  | .parallel ⟨_, _, _, _, body, _⟩ => keeps_bodyEnvAfter true Γ body
  | .comment _ | .importSkill _ | .agent _ | .block _ | .repeated _ | .forEach _ | .loop _
  | .attempt _ | .throw _ | .choice _ | .conditional _ | .action (.pipe _) | .action (.doBlock _)
  | .action (.invoke _) => .refl _ Γ

private theorem keeps_bodyEnvAfter (isBranch : Bool) (Γ : Env) :
    (body : List Statement) → Env.Keeps (bodyIntroduces body) Γ (bodyEnvAfter isBranch Γ body)
  | [] => .refl _ Γ
  | s :: body => (s.keeps_envAfter isBranch Γ).trans (keeps_bodyEnvAfter isBranch _ body)

end

/-! ## What is handed down -/

namespace Usage

/-- Whether nothing that is handed down to a session has been declared on the way. -/
def Intact : Usage → Prop
  | handed _ given => given.Intact
  | _ => True

instance : DecidablePred Intact
  | handed _ given => inferInstanceAs (Decidable given.Intact)
  | use _ _ | implied _ _ | ends _ _ => inferInstanceAs (Decidable True)

/-- Whether of the bindings of a scope that ends all those count as used that sessions are given. -/
def Sound : Usage → Prop
  | ends Γ within => ∀ x, (∃ u ∈ within, u.Takes Γ.tail.length x) →
    ∃ u ∈ within, u.Seen Γ.tail.length x
  | _ => True

/-- Whether a scope ends with a binding that is taken to be used although no name that is written
and no session without a context uses it. -/
def Overlooks (x : Ident) : Usage → Prop
  | ends Γ within => Γ.Declares x ∧ (∃ u ∈ within, u.Implies Γ.tail.length x.val)
    ∧ ¬ ∃ u ∈ within, u.Due Γ.tail.length x.val
  | _ => False

/-- What nothing uses is reported or overlooked. -/
theorem leaves_due_iff {u : Usage} (sound : u.Sound) (x : Ident) :
    u.Leaves Due x ↔ u.Leaves Seen x ∨ u.Overlooks x := by
  cases u with
  | ends Γ within =>
    have due : (∃ u ∈ within, u.Due Γ.tail.length x.val)
        → ∃ u ∈ within, u.Seen Γ.tail.length x.val := by
      rintro ⟨u, member, uses | takes⟩
      · exact ⟨u, member, .inl uses⟩
      · exact sound x.val ⟨u, member, takes⟩
    constructor
    · rintro ⟨declared, idle⟩
      by_cases implied : ∃ u ∈ within, u.Implies Γ.tail.length x.val
      · exact .inr ⟨declared, implied, idle⟩
      · refine .inl ⟨declared, ?_⟩
        rintro ⟨u, member, uses | implies⟩
        · exact idle ⟨u, member, .inl uses⟩
        · exact implied ⟨u, member, implies⟩
    · rintro (⟨declared, unseen⟩ | ⟨declared, -, idle⟩)
      · exact ⟨declared, mt due unseen⟩
      · exact ⟨declared, idle⟩
  | use | implied | handed => simp [Leaves, Overlooks]

end Usage

namespace Given

/-- Whether a name is handed down that stands, where it comes from, for a let or const binding of
the scope with the number `n`. -/
def Brings (given : Given) (n : Nat) (x : String) : Prop :=
  ∃ g ∈ given.names, g.1 = x ∧ bindingScope? g.2 = some n

/-- Whether what is handed down comes from scopes that are still open, and names that have not been
declared on the way stand for the bindings that they stand for where they come from. -/
structure Fits (given : Given) (Γ : Env) : Prop where
  below : ∀ n x, given.Brings n x → n < Γ.length
  holder : ∀ g ∈ given.names, g.1 ∉ given.declared → Γ.holder? g.1 = bindingScope? g.2

private theorem not_brings_nothing {n : Nat} {x : String} : ¬ ({} : Given).Brings n x := by
  rintro ⟨g, member, -⟩
  cases member

private theorem brings_give {Γ : Env} {names : List String} {n : Nat} {x : String} :
    (Γ.give names).Brings n x ↔ x ∈ names ∧ Γ.holder? x = some n := by
  constructor
  · rintro ⟨g, member, rfl, held⟩
    obtain ⟨name, among, rfl⟩ := List.mem_map.1 member
    exact ⟨among, held⟩
  · rintro ⟨among, held⟩
    exact ⟨(x, Γ.locate x), List.mem_map_of_mem among, rfl, held⟩

namespace Fits

variable {given : Given} {Γ Γ' : Env}

private theorem nothing (Γ : Env) : ({} : Given).Fits Γ :=
  ⟨fun _ _ brings ↦ absurd brings not_brings_nothing, fun _ member ↦ absurd member List.not_mem_nil⟩

private theorem give (Γ : Env) (names : List String) : (Γ.give names).Fits Γ where
  below _ _ brings := Env.holder?_lt (brings_give.1 brings).2
  holder g member _ := by
    obtain ⟨name, -, rfl⟩ := List.mem_map.1 member
    rfl

/-- A place where the same names stand for the same bindings, but for some that are declared
there. -/
theorem past (h : given.Fits Γ) {names : List String} (keeps : Γ.Keeps names Γ') :
    (given.past names).Fits Γ' where
  below n x brings := Nat.lt_of_lt_of_le (h.below n x brings) keeps.depth
  holder g member apart := by
    obtain ⟨before, here⟩ := not_or.1 (mt List.mem_append.2 apart)
    exact (keeps.holder g.1 here).trans (h.holder g member before)

private theorem enter (h : given.Fits Γ) (kind : SymbolKind) (names : List Ident) :
    (given.past (names.map Located.val)).Fits (Γ.enter kind names) := h.past (.enter Γ kind names)

/-- A scope that starts with no names. -/
theorem enterPlain (h : given.Fits Γ) : given.Fits (Γ.enter .bodyLocal []) := by
  have entered := h.enter .bodyLocal []
  rwa [List.map_nil, past_nil] at entered

end Fits

/-! ## Parts of a program -/

/-- Whether in a part of a program all that counts as used that sessions are given, unless the part
is given it and has a session without a context. `vs` are the parts within it, and `us` is what
there is to say about it. -/
structure Covers (given : Given) (vs : List Visit) (us : List Usage) : Prop where
  takes : (∀ u ∈ us, u.Intact) → ∀ n x, (∃ u ∈ us, u.Takes n x) →
    (∃ u ∈ us, u.Seen n x) ∨ given.Brings n x ∧ vs.any isOpenSession = true
  sound : (∀ u ∈ us, u.Intact) → ∀ u ∈ us, u.Sound

namespace Covers

variable {given : Given} {Γ Δ : Env} {vs vs' : List Visit} {us us' : List Usage}

/-- What is given to no session. -/
theorem plain (takes : ∀ u ∈ us, ∀ n x, ¬ u.Takes n x) (sound : ∀ u ∈ us, u.Sound) :
    given.Covers vs us where
  takes _ n x taken := by
    obtain ⟨u, member, takes'⟩ := taken
    exact absurd takes' (takes u member n x)
  sound _ := sound

private theorem nil : given.Covers vs [] :=
  plain (fun _ member ↦ absurd member List.not_mem_nil) fun _ member ↦
    absurd member List.not_mem_nil

/-- Names that are used. -/
theorem uses {names : List String} : given.Covers vs (names.map (.use Γ)) := by
  apply plain <;> intro u member <;> obtain ⟨name, -, rfl⟩ := List.mem_map.1 member
  · exact fun _ _ ↦ id
  · trivial

private theorem string (s : StringLit) : given.Covers vs (s.usages Γ) := by
  have same : s.usages Γ = (s.interpolations.map Located.val).map (.use Γ) := by
    rw [List.map_map]
    rfl
  exact same ▸ uses

private theorem use (name : Ident) : given.Covers vs [.use Γ name.val] := by
  have one : given.Covers vs ([name.val].map (.use Γ)) := uses
  exact one

/-- A part of a larger part. -/
theorem mono (h : given.Covers vs us) (sub : vs ⊆ vs') : given.Covers vs' us where
  takes intact n x taken := by
    refine (h.takes intact n x taken).imp_right (And.imp_right fun isOpen ↦ ?_)
    obtain ⟨v, member, is⟩ := List.any_eq_true.1 isOpen
    exact List.any_eq_true.2 ⟨v, sub member, is⟩
  sound := h.sound

/-- What is given nothing from around it. -/
theorem ofNothing (h : ({} : Given).Covers vs us) : given.Covers vs' us where
  takes intact n x taken :=
    .inl ((h.takes intact n x taken).resolve_right fun outer ↦ not_brings_nothing outer.1)
  sound := h.sound

private theorem append (h : given.Covers vs us) (h' : given.Covers vs' us') :
    given.Covers (vs ++ vs') (us ++ us') where
  takes intact n x taken := by
    obtain ⟨first, second⟩ := List.forall_mem_append.1 intact
    have wide := h.mono (List.subset_append_left vs vs')
    have wide' := h'.mono (List.subset_append_right vs vs')
    rw [exists_mem_append] at taken ⊢
    rcases taken with here | there
    · exact (wide.takes first n x here).imp_left .inl
    · exact (wide'.takes second n x there).imp_left .inr
  sound intact := by
    obtain ⟨first, second⟩ := List.forall_mem_append.1 intact
    exact List.forall_mem_append.2 ⟨h.sound first, h'.sound second⟩

/-- A scope around what is given something from outside. -/
theorem closing (h : given.Covers vs us) (below : ∀ n x, given.Brings n x → n < Γ.length)
    (left : Δ.tail = Γ) : given.Covers vs (Usage.closing Δ us) where
  takes intact n x taken := by
    obtain ⟨within, -⟩ := List.forall_mem_append.1 intact
    rw [Usage.closing, exists_mem_append] at taken ⊢
    rcases taken with here | ⟨u, member, takes⟩
    · exact (h.takes within n x here).imp_left .inl
    · obtain rfl := List.mem_singleton.1 member
      exact takes.elim
  sound intact := by
    obtain ⟨within, -⟩ := List.forall_mem_append.1 intact
    refine List.forall_mem_append.2 ⟨h.sound within, List.forall_mem_singleton.2 fun x taken ↦ ?_⟩
    refine (h.takes within _ x taken).resolve_right fun outer ↦ ?_
    exact absurd (below _ x outer.1) (left ▸ Nat.lt_irrefl _)

/-- A session. Its context, if it has none, comes from around it. -/
theorem session (fits : given.Fits Γ) (s : Session) :
    given.Covers [.action (.session s)] (SessionOf.usages Γ given s) := by
  have prompt : given.Covers [] (s.prompt.toList.flatMap (StringLit.usages Γ)) := by
    cases s.prompt with
    | none => exact nil
    | some prompt =>
      rw [Option.toList_some, List.flatMap_singleton]
      exact string prompt
  have context : given.Covers [] (s.context.names.map fun name ↦ .use Γ name.val) := by
    have written : given.Covers [] ((s.context.names.map Located.val).map (.use Γ)) := uses
    rwa [List.map_map] at written
  have handed : given.Covers [.action (.session s)]
      (if s.context.isImplicit then [.handed Γ given] else []) := by
    split
    · next isOpen =>
      refine ⟨fun intact n x taken ↦ .inr ?_, fun _ ↦ List.forall_mem_singleton.2 trivial⟩
      obtain ⟨u, member, takes⟩ := taken
      obtain rfl := List.mem_singleton.1 member
      obtain ⟨among, held⟩ := takes
      obtain ⟨g, handed, rfl⟩ := List.mem_map.1 among
      have kept := fits.holder g handed (intact _ member g handed)
      exact ⟨⟨g, handed, rfl, kept.symm.trans held⟩, by simp [isOpenSession, isOpen]⟩
    · exact nil
  exact (prompt.append context).append handed

/-- A body with a scope of its own. -/
theorem body {kind : SymbolKind} {names : List Ident} {inner : List Statement}
    (fits : given.Fits Γ) (h : given.Covers vs us) :
    given.Covers vs (Usage.closing (bodyEnvAfter false (Γ.enter kind names) inner) us) := by
  apply h.closing fits.below
  rw [tail_bodyEnvAfter, Env.tail_enter]

end Covers

end Given

/-- What does nothing hands nothing down. -/
theorem Statement.usages_of_not_isExecutable {s : Statement} (h : s.isExecutable = false)
    (p : Place) (Γ : Env) (given given' : Given) : s.usages p Γ given = s.usages p Γ given' := by
  cases s with
  | comment | importSkill | agent | block => rfl
  | _ => cases h

/-- What a sequence of statements is given, or the result of the statement before. -/
structure Given.Follows (given outer : Given) (p : Place) (Γ : Env) (before : List String) :
    Prop where
  fits : given.Fits Γ
  source : ∀ n x, given.Brings n x →
    outer.Brings n x ∨ p.isBranch = false ∧ x ∈ before ∧ Γ.holder? x = some n

namespace Given.Follows

variable {given outer : Given} {p : Place} {Γ : Env} {before : List String}

private theorem start (fits : given.Fits Γ) : given.Follows given p Γ before :=
  ⟨fits, fun _ _ ↦ .inl⟩

/-- The start of a scope. -/
theorem enter (fits : given.Fits Γ) (kind : SymbolKind) (names : List Ident) :
    (given.past (names.map Located.val)).Follows given p (Γ.enter kind names) before :=
  ⟨fits.enter kind names, fun _ _ ↦ .inl⟩

/-- What the next statement is given. Branches are all given what their block is given. -/
theorem next (h : given.Follows outer p Γ before) (s : Statement) :
    Given.Follows
      (if p.isBranch then given.past s.introduces
        else if s.isExecutable then (s.envAfter p.isBranch Γ).give (Check.resultNames s) else given)
      outer (p.past s) (s.envAfter p.isBranch Γ)
      (if s.isExecutable then Check.resultNames s else before) := by
  cases branch : p.isBranch with
  | true =>
    refine ⟨h.fits.past (s.keeps_envAfter true Γ), fun n x brings ↦ .inl ?_⟩
    exact (h.source n x brings).resolve_right fun before ↦ Bool.noConfusion (branch ▸ before.1)
  | false =>
    have following : (p.past s).isBranch = false := (p.isBranch_past s).trans branch
    cases runs : s.isExecutable with
    | true => exact ⟨.give _ _, fun n x brings ↦ .inr ⟨following, Given.brings_give.1 brings⟩⟩
    | false =>
      rw [s.envAfter_of_not_isExecutable runs]
      exact ⟨h.fits, fun n x brings ↦ (h.source n x brings).imp_right fun before ↦
        ⟨following, before.2⟩⟩

/-- A statement of a sequence. What it has a session for, of what the statement before hands on, it
is taken to use. -/
theorem covers (h : given.Follows outer p Γ before) {s : Statement}
    (each : ∀ given : Given, given.Fits Γ →
      given.Covers (s.visits outsideSessions) (s.usages p Γ given)) :
    outer.Covers (s.visits outsideSessions)
      ((if s.isExecutable && Check.seesPredecessor s then before.map (.implied Γ) else [])
        ++ s.usages p Γ given) := by
  cases runs : s.isExecutable with
  | false =>
    rw [Bool.false_and, if_neg Bool.false_ne_true, List.nil_append,
      s.usages_of_not_isExecutable runs p Γ given {}]
    exact (each {} (.nothing Γ)).ofNothing
  | true =>
    rw [Bool.true_and]
    have inner := each given h.fits
    have isImplied {u : Usage} (member : u ∈ if Check.seesPredecessor s then before.map (.implied Γ)
        else []) : ∃ name, u = .implied Γ name := by
      split at member
      · obtain ⟨name, -, rfl⟩ := List.mem_map.1 member
        exact ⟨name, rfl⟩
      · cases member
    constructor
    · intro intact n x taken
      obtain ⟨-, within⟩ := List.forall_mem_append.1 intact
      rw [exists_mem_append] at taken ⊢
      rcases taken with ⟨u, member, takes⟩ | there
      · obtain ⟨name, rfl⟩ := isImplied member
        exact takes.elim
      rcases inner.takes within n x there with seen | ⟨brings, isOpen⟩
      · exact .inl (.inr seen)
      rcases h.source n x brings with outside | ⟨-, among, held⟩
      · exact .inr ⟨outside, isOpen⟩
      · refine .inl (.inl ⟨.implied Γ x, ?_, .inr ⟨rfl, held⟩⟩)
        rw [Check.seesPredecessor, if_pos isOpen]
        exact List.mem_map_of_mem among
    · intro intact
      obtain ⟨-, within⟩ := List.forall_mem_append.1 intact
      refine List.forall_mem_append.2 ⟨fun u member ↦ ?_, inner.sound within⟩
      obtain ⟨name, rfl⟩ := isImplied member
      trivial

end Given.Follows

mutual

private theorem Statement.usages_covers (p : Place) {Γ : Env} {given : Given}
    (fits : given.Fits Γ) :
    (s : Statement) → given.Covers (s.visits outsideSessions) (s.usages p Γ given)
  | .comment _ | .importSkill _ | .agent _ => .nil
  | .block ⟨_, params, body, _⟩ =>
    .ofNothing (.body (.nothing Γ) (bodyUsages_covers p.inBody (.start (.nothing _)) body))
  | .binding _ ⟨_, value, _⟩ => value.usages_covers p fits
  | .assignment ⟨_, value, _⟩ => value.usages_covers p fits
  | .action a => a.usages_covers p fits
  | .parallel ⟨_, _, _, _, body, _⟩ => bodyUsages_covers p.branches (.start fits) body
  | .repeated ⟨_, index, body, _⟩ =>
    .body fits (bodyUsages_covers p.inBody (.enter fits _ _) body)
  | .forEach ⟨item, index, collection, _, _, _, body, _⟩ =>
    (collection.usages_covers p fits).append
      (.body fits (bodyUsages_covers p.inBody (.enter fits _ _) body))
  | .loop ⟨_, _, index, _, body, _⟩ =>
    .mono (.body fits (bodyUsages_covers p.inBody (.enter fits _ _) body))
      (List.subset_append_right _ _)
  | .attempt ⟨body, handler, cleanup, _⟩ =>
    .append (.append (.body fits (bodyUsages_covers p.inBody (.start fits.enterPlain) body))
      (handlerUsages_covers p fits handler)) (clauseUsages_covers p fits cleanup)
  | .throw ⟨message, _⟩ => by
    cases message with
    | none => exact .nil
    | some message =>
      rw [Statement.usages, Option.toList_some, List.flatMap_singleton]
      exact .string message
  | .choice ⟨_, options, _⟩ => (optionUsages_covers p fits options).mono (List.subset_cons_self _ _)
  | .conditional ⟨branches, otherwise, _⟩ =>
    (conditionUsages_covers p fits branches).append (clauseUsages_covers p fits otherwise)

private theorem bodyUsages_covers (p : Place) {Γ : Env} {before : List String} {given outer : Given}
    (follows : given.Follows outer p Γ before) :
    (body : List Statement) →
      outer.Covers (bodyVisits outsideSessions body) (bodyUsages p Γ before given body)
  | [] => by
    rw [bodyUsages]
    split
    · exact .uses
    · exact .nil
  | s :: body => by
    have here := follows.covers fun _ fits ↦ s.usages_covers p fits
    have rest := bodyUsages_covers (p.past s) (follows.next s) body
    apply (here.append rest).mono
    intro v member
    rcases List.mem_append.1 member with within | later
    · exact List.mem_append_left _ (List.mem_cons_of_mem _ within)
    · exact List.mem_append_right _ (List.mem_cons_of_mem _ later)

private theorem handlerUsages_covers (p : Place) {Γ : Env} {given : Given} (fits : given.Fits Γ) :
    (handler : Option Handler) →
      given.Covers (handlerVisits outsideSessions handler) (handlerUsages p Γ given handler)
  | none => .nil
  | some ⟨_, body, _⟩ =>
    .body fits (bodyUsages_covers p.handling (.enter fits _ _) body)

private theorem clauseUsages_covers (p : Place) {Γ : Env} {given : Given} (fits : given.Fits Γ) :
    (clause : Option Body) →
      given.Covers (clauseVisits outsideSessions clause) (clauseUsages p Γ given clause)
  | none => .nil
  | some ⟨body, _⟩ => .body fits (bodyUsages_covers p.inBody (.start fits.enterPlain) body)

private theorem optionUsages_covers (p : Place) {Γ : Env} {given : Given} (fits : given.Fits Γ) :
    (options : List ChoiceOption) →
      given.Covers (optionVisits outsideSessions options) (optionUsages p Γ given options)
  | [] => .nil
  | ⟨label, body, _⟩ :: options => by
    have inner : given.Covers (bodyVisits outsideSessions body)
        (bodyUsages p.inBody (Γ.enter .bodyLocal []) [] given body) :=
      bodyUsages_covers p.inBody (.start fits.enterPlain) body
    have labelled : given.Covers [.string label] (label.usages Γ) := .string label
    exact (labelled.append (.body fits inner)).append (optionUsages_covers p fits options)

private theorem conditionUsages_covers (p : Place) {Γ : Env} {given : Given} (fits : given.Fits Γ) :
    (branches : List Branch) →
      given.Covers (branchVisits outsideSessions branches) (conditionUsages p Γ given branches)
  | [] => .nil
  | ⟨_, condition, body, _⟩ :: branches => by
    have inner : given.Covers (bodyVisits outsideSessions body)
        (bodyUsages p.inBody (Γ.enter .bodyLocal []) [] given body) :=
      bodyUsages_covers p.inBody (.start fits.enterPlain) body
    have here := inner.mono (List.subset_cons_self (.discretion condition) _)
    exact (Given.Covers.body fits here).append (conditionUsages_covers p fits branches)

private theorem Action.usages_covers (p : Place) {Γ : Env} {given : Given} (fits : given.Fits Γ) :
    (a : Action) →
      given.Covers (Visit.opened outsideSessions (.action a) (a.visits outsideSessions))
        (a.usages p Γ given)
  | .session s => .session fits s
  | .pipe ⟨input, operations, _⟩ =>
    .mono ((input.usages_covers p fits).append (.ofNothing (operationUsages_covers p operations)))
      (List.subset_cons_self _ _)
  | .doBlock ⟨body, _⟩ =>
    .mono (.body fits (bodyUsages_covers p.inBody (.start fits.enterPlain) body))
      (List.subset_cons_self _ _)
  | .invoke ⟨_, args, _⟩ => (valueUsages_covers p fits args).mono (List.subset_cons_self _ _)

private theorem operationUsages_covers (p : Place) {Γ : Env} :
    (operations : List Operation) →
      ({} : Given).Covers (operationVisits outsideSessions operations)
      (operationUsages p Γ operations)
  | [] => .nil
  | ⟨operator, item, accumulator, body, span⟩ :: operations => by
    let names := OperationOf.names ⟨operator, item, accumulator, [], span⟩
    let inside := Γ.enter .bodyLocal names
    have follows : (inside.give (names.map Located.val)).Follows {} p.inBody inside [] := by
      refine ⟨.give inside _, fun n x brings ↦ ?_⟩
      obtain ⟨among, held⟩ := Given.brings_give.1 brings
      rw [Γ.holder?_enter_of_mem rfl among] at held
      cases held
    have here : ({} : Given).Covers (bodyVisits outsideSessions body)
        (Usage.closing (bodyEnvAfter false inside body)
          (bodyUsages p.inBody inside [] (inside.give (names.map Located.val)) body)) :=
      .body (.nothing Γ) (bodyUsages_covers p.inBody follows body)
    exact (here.mono (List.subset_cons_self _ _)).append (operationUsages_covers p operations)

private theorem Expr.usages_covers (p : Place) {Γ : Env} {given : Given} (fits : given.Fits Γ) :
    (e : Expr) → given.Covers (e.visits outsideSessions) (e.usages p Γ given)
  | .action a => a.usages_covers p fits
  | .string s => .string s
  | .number _ | .discretion _ => .nil
  | .ident name => .use name
  | .array ⟨items, _⟩ => (valueUsages_covers p fits items).mono (List.subset_cons_self _ _)
  | .object ⟨entries, _⟩ => (entryUsages_covers p fits entries).mono (List.subset_cons_self _ _)

private theorem valueUsages_covers (p : Place) {Γ : Env} {given : Given} (fits : given.Fits Γ) :
    (es : List Expr) → given.Covers (valueVisits outsideSessions es) (valueUsages p Γ given es)
  | [] => .nil
  | e :: es => (e.usages_covers p fits).append (valueUsages_covers p fits es)

private theorem entryUsages_covers (p : Place) {Γ : Env} {given : Given} (fits : given.Fits Γ) :
    (entries : List Entry) →
      given.Covers (entryVisits outsideSessions entries) (entryUsages p Γ given entries)
  | [] => .nil
  | ⟨_, some value⟩ :: entries =>
    (value.usages_covers p fits).append (entryUsages_covers p fits entries)
  | ⟨key, none⟩ :: entries => by
    have here : given.Covers [.reference key] [.use Γ key.val] := .use key
    exact here.append (entryUsages_covers p fits entries)

end

/-- In a program in which nothing that is handed down has been declared on the way, whatever a
session is given counts as used. -/
theorem Program.usages_sound (p : Program) (intact : ∀ u ∈ p.usages, u.Intact) :
    ∀ u ∈ p.usages, u.Sound := by
  have start : ({} : Given).Fits [] := .nothing []
  have covers : ({} : Given).Covers (bodyVisits outsideSessions p.statements)
      (Usage.closing (bodyEnvAfter false (Env.enter [] .bodyLocal []) p.statements)
        (bodyUsages {} (Env.enter [] .bodyLocal []) [] {} p.statements)) :=
    .body start (bodyUsages_covers {} (.enter start .bodyLocal []) p.statements)
  exact covers.sound intact

end ProseLang
