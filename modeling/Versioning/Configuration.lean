import Versioning.Rule
import Versioning.Scheme.Cache
import Versioning.Store.Target

/-!
The configuration of a project: its scheme, the places its version is kept in
and its rules.
-/

namespace Versioning

structure Configuration where
  /-- A preset, or the name that selects `definition`. -/
  schemeName : String
  definition : Option String
  /-- Where the current version is read from. -/
  versionFile : Target
  /-- Where the version is written besides. -/
  files : List Target
  rules : List Rule
  deriving DecidableEq, Repr

def defaultVersionFile : Target :=
  { path := "VERSION", line := none }

namespace Configuration

def default : Configuration :=
  { schemeName := "semantic"
    definition := none
    versionFile := defaultVersionFile
    files := []
    rules := [] }

def schemeDefinition (configuration : Configuration) : Except Error String :=
  if configuration.schemeName == customScheme then
    match configuration.definition with
    | some definition => .ok definition
    | none => .error (.setting .missingDefinition)
  else
    match Preset.definition? configuration.schemeName with
    | some definition => .ok definition
    | none => .error (.setting (.unknownScheme configuration.schemeName))

/-- The places that a new version is written to, the version file first. -/
def targets (configuration : Configuration) : List Target :=
  configuration.versionFile :: configuration.files

end Configuration

def Scheme.checkRules (scheme : Scheme) (rules : List Rule) : Except Error Unit :=
  (rules.flatMap Rule.fieldNames).forM scheme.checkField

def Configuration.validate (configuration : Configuration) : Except Error Unit := do
  let definition ← configuration.schemeDefinition
  let scheme ← Scheme.ofDefinition definition
  scheme.checkRules configuration.rules

end Versioning
