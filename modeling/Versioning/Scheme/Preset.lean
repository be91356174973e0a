/-!
Schemes that a configuration can select by name.
-/

namespace Versioning

/-- The name that selects the definition given in the configuration itself. -/
def customScheme : String := "custom"

namespace Preset

def all : List (String × String) :=
  [("semantic", "major.minor[.build]"), ("org_semantic", "major.minor.build")]

def definition? (name : String) : Option String :=
  (all.find? (·.1 == name)).map Prod.snd

def names : List String :=
  all.map Prod.fst

end Preset

end Versioning
