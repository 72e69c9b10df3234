import ProseLang.Program.Visit
import ProseLang.Validation.Issue

/-!
# Definitions

Agents, blocks and imported skills are known everywhere in a program, before and after the place of
their definition. Of several with one name the first counts.
-/

namespace ProseLang

/-- What a program defines (`Definitions`). -/
structure Definitions where
  agents : List Ident
  /-- Blocks with the number of their parameters. -/
  blocks : List (Ident × Nat)
  skills : List Ident

namespace Definitions

/-- The parts that definitions are looked for in: all but the insides of agents. -/
def inside : Visit → Bool
  | .statement (.agent _) => false
  | _ => true

/-- The definitions in a program, in order (`Definitions::visit_program`). -/
def ofProgram (p : Program) : Definitions :=
  let visits := bodyVisits inside p.statements
  { agents := visits.filterMap fun
      | .statement (.agent a) => some a.name
      | _ => none
    blocks := visits.filterMap fun
      | .statement (.block b) => some (b.name, b.params.length)
      | _ => none
    skills := visits.filterMap fun
      | .statement (.importSkill i) => some ⟨i.skill.value, i.skill.span⟩
      | _ => none }

/-- Whether an agent is defined. -/
def hasAgent (d : Definitions) (name : String) : Bool := d.agents.any (·.val = name)

/-- Whether a skill is imported. -/
def hasSkill (d : Definitions) (name : String) : Bool := d.skills.any (·.val = name)

/-- The number of parameters of a block. -/
def arity? (d : Definitions) (name : String) : Option Nat :=
  (d.blocks.find? (·.1.val = name)).map Prod.snd

/-- The names that occurred before, each with the place of its first occurrence; `seen` holds the
names before these. -/
def repetitions (seen : List Ident) : List Ident → List (Ident × Span)
  | [] => []
  | name :: names =>
    match seen.find? (·.val = name.val) with
    | some first => (name, first.span) :: repetitions seen names
    | none => repetitions (seen ++ [name]) names

/-- The findings about names that are defined twice (`Checker::collect_definitions`). -/
def findings (d : Definitions) : List Finding :=
  (repetitions [] d.agents).map (fun r ↦ ⟨.duplicateAgent r.1.val r.2, r.1.span⟩)
    ++ (repetitions [] (d.blocks.map Prod.fst)).map
      (fun r ↦ ⟨.duplicateBlock r.1.val r.2, r.1.span⟩)
    ++ (repetitions [] d.skills).map fun r ↦ ⟨.duplicateImport r.1.val r.2, r.1.span⟩

/-- Different names are no repetitions. -/
theorem repetitions_eq_nil {seen names : List Ident}
    (h : ((seen ++ names).map Located.val).Nodup) : repetitions seen names = [] := by
  induction names generalizing seen with
  | nil => rfl
  | cons name names ih =>
    have apart : seen.find? (·.val = name.val) = none := by
      rw [List.find?_eq_none]
      intro other member same
      simp only [List.map_append, List.map_cons] at h
      have := (List.nodup_append.1 h).2.2 other.val (List.mem_map_of_mem member) name.val
        List.mem_cons_self
      simp_all
    rw [repetitions, apart]
    exact ih (by simpa using h)

end Definitions

end ProseLang
