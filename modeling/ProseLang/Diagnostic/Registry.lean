import ProseLang.Diagnostic.Code

/-!
# Registry of codes

A registry keeps one description per written code. Registering a code again replaces its
description and keeps its place; a code outside every family is refused. Main statement:
`get?_register`.
-/

namespace ProseLang

/-- A code as a registry keeps it (`ErrorCodeInfo`). -/
structure CodeEntry where
  code : String
  category : Category
  description : String
deriving DecidableEq, Repr

/-- Descriptions by written code, in the order of first registration (`ErrorCodeRegistry`). -/
structure Registry where
  entries : List CodeEntry := []
deriving Repr

namespace Registry

private def put (e : CodeEntry) : List CodeEntry → List CodeEntry
  | [] => [e]
  | x :: xs => if x.code = e.code then e :: xs else x :: put e xs

/-- The entry of a code (`ErrorCodeRegistry::get`). -/
def get? (r : Registry) (code : String) : Option CodeEntry :=
  r.entries.find? (·.code = code)

/-- Adds a code, or nothing if the code is outside every family (`ErrorCodeRegistry::register`). -/
def register (r : Registry) (code description : String) : Option Registry :=
  (Category.ofText? code).map fun category ↦ ⟨put ⟨code, category, description⟩ r.entries⟩

/-- The number of registered codes (`ErrorCodeRegistry::len`). -/
def size (r : Registry) : Nat := r.entries.length

/-- Whether no code is registered (`ErrorCodeRegistry::is_empty`). -/
def isEmpty (r : Registry) : Bool := r.entries.isEmpty

/-- The entries of one family, by code (`ErrorCodeRegistry::codes_in_category`). -/
def inCategory (r : Registry) (category : Category) : List CodeEntry :=
  (r.entries.filter (·.category = category)).mergeSort fun a b ↦ a.code ≤ b.code

/-- The registry of every code that the checks of this library use
(`ErrorCodeRegistry::with_standard_codes`). -/
def standard : Registry :=
  Code.all.foldl (fun r c ↦ (r.register c.text c.description).getD r) {}

private theorem find?_put (e : CodeEntry) (xs : List CodeEntry) (code : String) :
    (put e xs).find? (·.code = code) =
      if e.code = code then some e else xs.find? (·.code = code) := by
  induction xs with
  | nil => by_cases h : e.code = code <;> simp [put, h]
  | cons x xs ih =>
    by_cases hx : x.code = e.code
    · by_cases h : e.code = code <;> simp [put, hx, h]
    · rw [put, if_neg hx, List.find?_cons, List.find?_cons, ih]
      by_cases h : e.code = code
      · subst h
        simp [hx]
      · by_cases hc : x.code = code <;> simp [h, hc]

/-- A registered code is found with its new description, every other code as before. -/
theorem get?_register {r s : Registry} {code description : String}
    (h : r.register code description = some s) (other : String) :
    s.get? other =
      if code = other then
        (Category.ofText? code).map fun category ↦ ⟨code, category, description⟩
      else r.get? other := by
  unfold register at h
  obtain ⟨category, hc, rfl⟩ := Option.map_eq_some_iff.1 h
  simp only [get?, find?_put, hc, Option.map_some]

end Registry

end ProseLang
