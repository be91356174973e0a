import Versioning.Keyed
import Versioning.Path
import Versioning.Store.Target

/-!
A store of texts in memory.

Files are told apart by what their paths say, not by how they are spelled.
-/

namespace Versioning

structure Memory where
  files : List (Path × String)
  readOnly : List Path
  deriving DecidableEq, Repr

namespace Memory

def empty : Memory :=
  { files := [], readOnly := [] }

def content? (memory : Memory) (path : String) : Option String :=
  (memory.files.find? (·.1 == Path.ofText path)).map Prod.snd

/-- Adds or replaces a file, even one that cannot be written. -/
def insert (memory : Memory) (path text : String) : Memory :=
  { memory with files := Keyed.set (Path.ofText path) text memory.files }

def read (memory : Memory) (path : String) : Except Error String :=
  match memory.content? path with
  | some text => .ok text
  | none => .error (.unreadable path .unknownEntry)

def write (memory : Memory) (path text : String) : Except Error Memory :=
  if memory.readOnly.contains (Path.ofText path) then
    .error (.unwritable path .readOnly)
  else
    .ok (memory.insert path text)

def store : TextStore (StateM Memory) where
  read path := do
    let memory ← (get : StateM Memory Memory)
    ExceptT.mk (pure (memory.read path))
  write path text := do
    let memory ← (get : StateM Memory Memory)
    match memory.write path text with
    | .ok memory => (set memory : StateM Memory PUnit)
    | .error error => throw error

end Memory

end Versioning
