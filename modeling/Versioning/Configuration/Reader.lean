import Versioning.Configuration
import Versioning.Toml.Document

/-!
Reading a configuration from a TOML document.

Keys without a meaning are passed over, and a setting that is absent takes its
default. A setting that is present has to have the right type.
-/

namespace Versioning

namespace Configuration

abbrev Setting (α : Type) := Toml.Value → Option α

def text : Setting String
  | .string text => some text
  | _ => none

def count : Setting Nat
  | .integer value => if 0 ≤ value then some value.toNat else none
  | _ => none

def listOf {α : Type} (element : Setting α) : Setting (List α)
  | .array elements => elements.mapM element
  | .tables elements => elements.mapM element
  | _ => none

/-- A setting made of several, given by a table, or by an array that lists the
first ones in order. -/
def parts (keys : List String) : Setting Toml.Entries
  | .table _ entries => some entries
  | .array elements => some (keys.zip elements)
  | .tables elements => some (keys.zip elements)
  | _ => none

def optional {α : Type} (entries : Toml.Entries) (key : String) (setting : Setting α) :
    Option (Option α) :=
  match entries.get? key with
  | none => some none
  | some value => (setting value).map some

def required {α : Type} (entries : Toml.Entries) (key : String) (setting : Setting α) :
    Option α :=
  entries.get? key >>= setting

def defaulted {α : Type} (entries : Toml.Entries) (key : String) (value : α)
    (setting : Setting α) : Option α :=
  (optional entries key setting).map (·.getD value)

def target : Setting Target := fun value => do
  let entries ← parts ["path", "line"] value
  return {
    path := ← required entries "path" text
    line := ← optional entries "line" count }

def isHollow : Toml.Value → Bool
  | .array elements => elements.isEmpty
  | .tables elements => elements.isEmpty
  | .table _ entries => entries.isEmpty
  | _ => false

/-- The name of a trigger, or a table with that name as its only key and
nothing under it. -/
def trigger : Setting Trigger
  | .string name => Trigger.ofText? name
  | .table _ [(name, content)] => if isHollow content then Trigger.ofText? name else none
  | _ => none

def selection : Setting FieldSelection
  | .string name => some (.one name)
  | value => (listOf text value).map .many

def rule : Setting Rule := fun value => do
  let entries ← parts ["trigger", "branch", "bump", "reset", "prefix", "suffix"] value
  return {
    trigger := ← required entries "trigger" trigger
    branch := ← optional entries "branch" text
    bump := ← optional entries "bump" text
    reset := ← optional entries "reset" selection
    front := ← optional entries "prefix" text
    back := ← optional entries "suffix" text }

def ofEntries (entries : Toml.Entries) : Option Configuration := do
  return {
    schemeName := ← defaulted entries "scheme" default.schemeName text
    definition := ← optional entries "scheme_definition" text
    versionFile := ← defaulted entries "version_file" default.versionFile target
    files := ← defaulted entries "files" default.files (listOf target)
    rules := ← defaulted entries "rules" default.rules (listOf rule) }

def ofToml (document : String) : Except Error Configuration :=
  match Toml.parse? document with
  | none => .error (.notConfiguration "the text is not a TOML document")
  | some entries =>
      match ofEntries entries with
      | none => .error (.notConfiguration "a setting has the wrong type or is missing")
      | some configuration => .ok configuration

end Configuration

end Versioning
