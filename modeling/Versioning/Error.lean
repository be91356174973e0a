import Versioning.Scheme.Parser
import Versioning.Scheme.Preset

/-!
Everything that can go wrong, and the words for it.
-/

namespace Versioning

inductive FileFault
  | missing
  | isDirectory
  | notDirectory
  | denied
  | nameTooLong
  | zeroByteInName
  | notText
  | unknownEntry
  | readOnly
  | other (text : String)
  deriving DecidableEq, Repr

def FileFault.text : FileFault → String
  | .missing => "No such file or directory (os error 2)"
  | .isDirectory => "Is a directory (os error 21)"
  | .notDirectory => "Not a directory (os error 20)"
  | .denied => "Permission denied (os error 13)"
  | .nameTooLong => "File name too long (os error 36)"
  | .zeroByteInName => "file name contained an unexpected NUL byte"
  | .notText => "stream did not contain valid UTF-8"
  | .unknownEntry => "no such mock file"
  | .readOnly => "read-only"
  | .other text => text

inductive SettingFault
  | unknownTrigger (text : String)
  | unknownScheme (name : String)
  | missingDefinition
  deriving DecidableEq, Repr

def SettingFault.text : SettingFault → String
  | .unknownTrigger text =>
      s!"unknown trigger '{text}' (expected commit, manual, pull-request or comment)"
  | .unknownScheme name =>
      let known := ", ".intercalate (Preset.names ++ [customScheme])
      s!"Unknown scheme '{name}', expected one of: {known}"
  | .missingDefinition => "scheme 'custom' requires a scheme_definition"

inductive Error
  | malformedScheme (definition : String) (fault : SchemeFault)
  | noMatch
  | unreadable (path : String) (fault : FileFault)
  | unwritable (path : String) (fault : FileFault)
  | unknownField (field scheme : String)
  | fieldOverflow (field value : String)
  | setting (fault : SettingFault)
  | notConfiguration (reason : String)
  deriving DecidableEq, Repr

namespace Error

def message : Error → String
  | .malformedScheme definition fault =>
      s!"Malformed scheme '{definition}': {fault.reason}"
  | .noMatch => "No match found in file. Unable to identify current version number."
  | .unreadable path _ => s!"Unable to read version source '{path}'"
  | .unwritable path _ => s!"Unable to write version source '{path}'"
  | .unknownField field scheme => s!"Unknown field '{field}' for scheme '{scheme}'"
  | .fieldOverflow field value =>
      s!"Value '{value}' of field '{field}' does not fit in 64 bits"
  | .setting fault => s!"Configuration error: {fault.text}"
  | .notConfiguration reason => s!"Failed to parse configuration: {reason}"

def cause? : Error → Option FileFault
  | .unreadable _ fault => some fault
  | .unwritable _ fault => some fault
  | _ => none

def report (error : Error) : String :=
  match error.cause? with
  | some fault => s!"{error.message}: {fault.text}"
  | none => error.message

end Error

end Versioning
