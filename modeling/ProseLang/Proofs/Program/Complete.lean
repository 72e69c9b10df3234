import ProseLang.Canonical.Stripping
import ProseLang.Program.Visit

/-!
# Programs with nothing missing

A part of a program is complete if each of its bodies has something to run and it has what its
construct cannot do without (`Visit.isComplete`). The body of a parallel block may be empty: an
empty one is left to validation.
-/

namespace ProseLang

/-- Whether a body has a statement that is no comment. -/
def hasCode (body : List Statement) : Bool := body.any (!·.isComment)

namespace Visit

/-- The bodies of a part, but for that of a parallel block. -/
def bodies : Visit → List (List Statement)
  | statement (.block b) => [b.body]
  | statement (.repeated r) => [r.body]
  | statement (.forEach f) => [f.body]
  | statement (.loop l) => [l.body]
  | statement (.attempt t) =>
    t.body :: t.handler.toList.map HandlerOf.body ++ t.cleanup.toList.map BodyOf.body
  | statement (.choice c) => c.options.map OptionOf.body
  | statement (.conditional c) => c.branches.map BranchOf.body ++ c.otherwise.toList.map BodyOf.body
  | action (.doBlock b) => [b.body]
  | operation o => [o.body]
  | _ => []

/-- Whether a part has what its construct cannot do without. -/
def isFilled : Visit → Bool
  | statement (.attempt t) => t.handler.isSome || t.cleanup.isSome
  | statement (.choice c) => !c.options.isEmpty
  | statement (.conditional c) => !c.branches.isEmpty
  | action (.pipe p) => !p.operations.isEmpty
  | operation o =>
    if o.operator.val = .reduce then o.accumulator.isSome && o.item.isSome else o.accumulator.isNone
  | context (.list names) | context (.object names) => !names.isEmpty
  | _ => true

/-- Whether nothing is missing from a part. -/
def isComplete (v : Visit) : Bool := v.bodies.all hasCode && v.isFilled

end Visit

/-- A body with a statement that is no comment. -/
theorem hasCode_of_mem {s : Statement} {body : List Statement} (hs : s ∈ body)
    (code : s.isComment = false) : hasCode body = true :=
  List.any_eq_true.2 ⟨s, hs, by rw [code]; rfl⟩

/-- One of two bodies has code if both together do. -/
theorem hasCode_append {body more : List Statement} :
    hasCode (body ++ more) = (hasCode body || hasCode more) := List.any_append

end ProseLang
