import Versioning.Error
import Versioning.Rule

/-!
What a run tells about itself while it works.

Nothing that is told changes what is done. Where the lines go, which of them are shown and
how a line is set are up to whoever listens.
-/

namespace Versioning

inductive Level
  | debug
  | info
  | warn
  deriving DecidableEq, Repr

namespace Level

def text : Level → String
  | .debug => "DEBUG"
  | .info => "INFO"
  | .warn => "WARN"

/-- Whether lines are shown if no filter is set: all of them with `-v`, and warnings
without it. -/
def shown (verbose : Bool) : Level → Bool
  | .warn => true
  | _ => verbose

end Level

inductive Notice
  | loading (path : String)
  | compiled (definition pattern : String)
  | located (literal scheme : String)
  | noRule (trigger : Trigger) (branch : String)
  | applied (rules : Nat) (entries : List (String × UInt64))
  | planned (current next : String) (rules : Nat)
  | notLocated (path : String) (error : Error)
  | writing (path : String) (bytes : Nat)
  | updated (path before after : String)
  deriving DecidableEq, Repr

namespace Notice

def level : Notice → Level
  | .notLocated _ _ => .warn
  | .updated _ _ _ => .info
  | _ => .debug

def message : Notice → String
  | .loading _ => "loading configuration"
  | .compiled _ _ => "compiled scheme matcher"
  | .located _ _ => "resolved current version"
  | .noRule _ _ => "no rule matches"
  | .applied _ _ => "applied bump rules"
  | .planned _ _ _ => "planned bump"
  | .notLocated _ _ => "cannot locate version"
  | .writing _ _ => "writing version file"
  | .updated _ _ _ => "updated version"

def entriesText (entries : List (String × UInt64)) : String :=
  let pairs := entries.map fun entry => s!"({entry.1.quote}, {entry.2})"
  "VersionMap \x7b entries: [" ++ ", ".intercalate pairs ++ "] \x7d"

def fields : Notice → List (String × String)
  | .loading path => [("path", path)]
  | .compiled definition pattern => [("scheme", definition.quote), ("pattern", pattern)]
  | .located literal scheme => [("version", literal), ("scheme", scheme)]
  | .noRule trigger branch => [("trigger", trigger.text), ("branch", branch.quote)]
  | .applied rules entries =>
      [("rules", toString rules), ("map", entriesText entries)]
  | .planned current next rules =>
      [("current", current), ("next", next), ("rules", toString rules)]
  | .notLocated path error => [("path", path), ("error", error.message)]
  | .writing path bytes => [("path", path), ("bytes", toString bytes)]
  | .updated path before after => [("path", path), ("from", before), ("to", after)]

def line (notice : Notice) : String :=
  let fields := notice.fields.map fun field => s!" {field.1}={field.2}"
  s!"{notice.level.text} {notice.message}{String.join fields}\n"

end Notice

def silent {m : Type → Type} [Monad m] : Notice → m Unit :=
  fun _ => pure ()

end Versioning
