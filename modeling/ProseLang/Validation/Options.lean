/-!
# Options of validation
-/

namespace ProseLang

/-- The texts of a list in order, each once. -/
def sortedTexts (texts : List String) : List String := (texts.mergeSort fun a b ↦ a ≤ b).eraseReps

/-- What validation knows about the surroundings of a program, and which advice it gives
(`ValidatorOptions`). -/
structure ValidatorOptions where
  /-- The models that may be named. -/
  models : List String := ["sonnet", "opus", "haiku"]
  /-- The skills that exist, in order; without the list, every skill does. -/
  resolvedSkills : Option (List String) := none
  warnOnTodoComments : Bool := true
  warnOnUnusedBindings : Bool := true
deriving DecidableEq, Repr

namespace ValidatorOptions

/-- Whether a model may be named (`ValidatorOptions::is_known_model`). -/
def isKnownModel (o : ValidatorOptions) (model : String) : Bool := o.models.contains model

/-- The same options with a given list of skills (`ValidatorOptions::with_resolved_skills`). -/
def withResolvedSkills (o : ValidatorOptions) (skills : List String) : ValidatorOptions :=
  { o with resolvedSkills := some (sortedTexts skills) }

/-- Whether a skill exists. -/
def resolves (o : ValidatorOptions) (skill : String) : Bool :=
  match o.resolvedSkills with
  | none => true
  | some skills => skills.contains skill

end ValidatorOptions

end ProseLang
