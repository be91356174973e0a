import Versioning.Configuration.Reader
import Versioning.Store.Disk

/-!
The configuration file of a project.

A file that is asked for is taken as it is. Otherwise the file in the working
directory comes first, and the file in the user's configuration directory
second. Without any file the defaults hold.
-/

namespace Versioning

namespace Configuration

def fileName : String := "bumper.toml"

def localFile : String :=
  Path.join "." fileName

def userFile (directory : String) : String :=
  Path.join (Path.join directory "bumper") fileName

variable {m : Type → Type} [Monad m]

def findFile (disk : Disk m) (userDirectory requested : Option String) :
    m (Option String) := do
  match requested with
  | some path => return some path
  | none =>
      if ← disk.pathExists localFile then
        return some localFile
      else
        match userDirectory.map userFile with
        | none => return none
        | some path =>
            if ← disk.pathExists path then return some path else return none

/-- The configuration in a file, or the defaults without a file. -/
def load (disk : Disk m) (file : Option String) (note : Notice → m Unit := silent) :
    ExceptT Error m Configuration :=
  match file with
  | none => return default
  | some path => do
      note (.loading path)
      let document ← disk.readText path
      ExceptT.mk (pure (ofToml document))

end Configuration

end Versioning
