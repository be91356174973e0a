import Versioning.Log
import Versioning.Path
import Versioning.Store.Target

/-!
Files on a disk, as a store of texts.

`Disk` is what a file system offers: bytes under paths. On top of it relative
paths can be taken from a directory other than the working directory, and bytes
are read as UTF-8.
-/

namespace Versioning

structure Disk (m : Type → Type) where
  /-- Whether a path leads to a file or a directory. -/
  pathExists : String → m Bool
  read : String → m (Except FileFault ByteArray)
  write : String → ByteArray → m (Except FileFault Unit)

namespace Disk

variable {m : Type → Type} [Monad m]

def readText (disk : Disk m) (path : String) : ExceptT Error m String := do
  match ← disk.read path with
  | .error fault => throw (.unreadable path fault)
  | .ok bytes =>
      match String.fromUTF8? bytes with
      | some text => return text
      | none => throw (.unreadable path .notText)

def writeText (disk : Disk m) (path text : String) : ExceptT Error m Unit := do
  match ← disk.write path text.toUTF8 with
  | .error fault => throw (.unwritable path fault)
  | .ok () => return ()

def resolve (root : Option String) (path : String) : String :=
  match root with
  | some root => if Path.isAbsolute path then path else Path.join root path
  | none => path

/-- The files of a disk, with relative paths taken from `root` if there is one
and from the working directory otherwise. -/
def store (disk : Disk m) (root : Option String) (note : Notice → m Unit := silent) :
    TextStore m where
  read path := disk.readText (resolve root path)
  write path text := do
    note (.writing (resolve root path) text.utf8ByteSize)
    disk.writeText (resolve root path) text

end Disk

end Versioning
