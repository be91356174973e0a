import Versioning.Error
import Versioning.Text.Line

/-!
Where a version is kept: a file, or one line of it, in a store of texts.
-/

namespace Versioning

/-- A file that holds a version, and the line it stands on if it is limited to
one. Lines are counted from one. -/
structure Target where
  path : String
  line : Option Nat
  deriving DecidableEq, Repr

structure TextStore (m : Type → Type) where
  read : String → ExceptT Error m String
  write : String → String → ExceptT Error m Unit

namespace TextStore

variable {m : Type → Type} [Monad m]

def readTarget (store : TextStore m) (target : Target) : ExceptT Error m String := do
  let text ← store.read target.path
  match target.line with
  | none => return text
  | some number => return Line.select text (some number)

/-- Replaces the text a target selects. For a line the file is read again and
its other lines are written back as they are. -/
def writeTarget (store : TextStore m) (target : Target) (text : String) :
    ExceptT Error m Unit := do
  match target.line with
  | none => store.write target.path text
  | some number =>
      let whole ← store.read target.path
      store.write target.path (Line.replace whole (some number) text)

end TextStore

end Versioning
