import Versioning.Command.Run

/-!
The command on a real disk.
-/

namespace Versioning

def FileFault.ofSystem : IO.Error → FileFault
  | .noFileOrDirectory _ _ _ => .missing
  | .inappropriateType _ code details => ofCode code.toNat details
  | .permissionDenied _ code details => ofCode code.toNat details
  | error => .other (toString error)
where
  ofCode (code : Nat) (details : String) : FileFault :=
    if code = 21 then .isDirectory
    else if code = 20 then .notDirectory
    else if code = 13 then .denied
    else .other s!"{details} (os error {code})"

def systemDisk : Disk IO where
  pathExists path := do
    try
      discard (IO.FS.Handle.mk path .read)
      return true
    catch error =>
      return FileFault.ofSystem error == .denied
  read path := do
    try
      return .ok (← IO.FS.readBinFile path)
    catch error =>
      return .error (.ofSystem error)
  write path content := do
    try
      IO.FS.writeBinFile path content
      return .ok ()
    catch error =>
      return .error (.ofSystem error)

def userDirectory : IO (Option String) := do
  match ← IO.getEnv "XDG_CONFIG_HOME" with
  | some directory => if Path.isAbsolute directory then return some directory
  | none => pure ()
  return (← IO.getEnv "HOME").map (Path.join · ".config")

def listen (verbose : Bool) (notice : Notice) : IO Unit :=
  if notice.level.shown verbose then IO.eprint notice.line else pure ()

end Versioning

def main (arguments : List String) : IO UInt32 := do
  let response ←
    Versioning.Command.run Versioning.systemDisk (← Versioning.userDirectory) arguments
      (Versioning.listen (Versioning.Command.verbose arguments))
  IO.print response.output
  IO.eprint response.errors
  return UInt32.ofNat response.code
