import ProseLang.Program.Visit

/-!
# Names for what has none

Results without a name are given one that the program binds nowhere. Their names are numbered, and
the search for a free number is bounded by the count of names in use.
-/

namespace ProseLang

/-- The parts looked into for names: all but the insides of agents and sessions. -/
def outsideDefinitions : Visit → Bool
  | .statement (.agent _) | .action (.session _) => false
  | _ => true

/-- The names that the header of a statement binds. -/
def Statement.headerNames : Statement → List Ident
  | .agent a => [a.name]
  | .block b => b.name :: b.params
  | .binding _ b => [b.name]
  | .assignment a => [a.name]
  | .repeated r => (r.index.map AsBinding.name).toList
  | .forEach f => f.item :: f.index.toList
  | .loop l => (l.index.map AsBinding.name).toList
  | .attempt t => ((t.handler.bind HandlerOf.error).map AsBinding.name).toList
  | _ => []

/-- The names that a part binds itself (`DeclaredNames`). -/
def Visit.boundNames : Visit → List Ident
  | .statement s => s.headerNames
  | .action (.session s) => s.name.toList
  | .operation o => o.item.toList ++ o.accumulator.toList
  | _ => []

/-- Every name that a program binds anywhere (`DeclaredNames`). -/
def Program.boundNames (p : Program) : List String :=
  ((bodyVisits outsideDefinitions p.statements).flatMap Visit.boundNames).map Located.val

/-- The name of the result of a session (`Canonicalizer::fresh_anon`). -/
def anonymousName (n : Nat) : String := "_anon_" ++ toString n

/-- The name of the result of a branch (`into_branch`). -/
def branchName (n : Nat) : String := "_branch_" ++ toString n

/-- The least index from `start` on whose name is not used, among the next `bound`. -/
def leastFree (used : List String) : (bound start : Nat) → Nat
  | 0, start => start
  | bound + 1, start =>
    if used.contains (anonymousName start) then leastFree used bound (start + 1) else start

/-- The least index from `start` on whose name is not used (`Canonicalizer::fresh_anon`). -/
def freshIndex (used : List String) (start : Nat) : Nat := leastFree used used.length start

end ProseLang
