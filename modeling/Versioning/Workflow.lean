import Versioning.Configuration
import Versioning.Located
import Versioning.Log

/-!
Bumping the version of a project.

A plan is made from the version file alone: the version found there, the rules
that match the event, and the decorated version that will take its place.
Carrying a plan out writes that version over the one found in each target, one
target after the other, and stops at the first target that fails. On the way all
of this is told to whoever listens.
-/

namespace Versioning

structure Workflow where
  configuration : Configuration
  scheme : Scheme
  deriving DecidableEq, Repr

structure Plan where
  current : Located
  next : String
  /-- The rules that matched, in the order in which they are declared. -/
  applied : List Rule
  deriving DecidableEq, Repr

def Plan.unchanged (plan : Plan) : Bool :=
  plan.current.literal == plan.next

namespace Workflow

/-- Sets a workflow up with schemes shared through a cache. The scheme stays in
the cache even if the rules do not fit it. -/
def openShared (configuration : Configuration) (cache : SchemeCache) :
    Except Error (Workflow × SharedScheme) × SchemeCache :=
  match configuration.schemeDefinition with
  | .error error => (.error error, cache)
  | .ok definition =>
      match cache.compile definition with
      | (.error error, cache) => (.error error, cache)
      | (.ok shared, cache) =>
          match shared.scheme.checkRules configuration.rules with
          | .error error => (.error error, cache)
          | .ok () => (.ok ({ configuration, scheme := shared.scheme }, shared), cache)

def create (configuration : Configuration) : Except Error Workflow :=
  (openShared configuration .empty).1.map Prod.fst

def locate (workflow : Workflow) (text : String) : Except Error Located :=
  workflow.scheme.locate workflow.configuration.rules text

/-- The change that `trigger` on `branch` calls for, given the current version.
Decorations of the current version are not carried over. -/
def planFrom (workflow : Workflow) (current : Located) (trigger : Trigger)
    (branch : String) : Except Error Plan := do
  let version ← Version.ofLiteral workflow.scheme current.core
  let applied := matchingRules workflow.configuration.rules trigger branch
  let outcome ← version.applyRules workflow.scheme applied
  return { current, next := outcome.render workflow.scheme, applied }

def setupLog (configuration : Configuration) : List Notice :=
  match configuration.schemeDefinition with
  | .error _ => []
  | .ok definition =>
      match Scheme.ofDefinition definition with
      | .error _ => []
      | .ok scheme => [.compiled definition scheme.pattern]

def planLog (workflow : Workflow) (current : Located) (trigger : Trigger)
    (branch : String) : List Notice :=
  match Version.ofLiteral workflow.scheme current.core with
  | .error _ => []
  | .ok version =>
      let applied := matchingRules workflow.configuration.rules trigger branch
      let unmatched := if applied.isEmpty then [.noRule trigger branch] else []
      match version.applyRules workflow.scheme applied with
      | .error _ => unmatched
      | .ok outcome =>
          unmatched ++
            [ .applied applied.length outcome.version.entries,
              .planned current.literal (outcome.render workflow.scheme) applied.length ]

variable {m : Type → Type} [Monad m]

def locateIn (workflow : Workflow) (store : TextStore m) (target : Target)
    (note : Notice → m Unit := silent) : ExceptT Error m Located := do
  let text ← store.readTarget target
  let located ← ExceptT.mk (pure (workflow.locate text))
  note (.located located.literal workflow.scheme.spelling)
  return located

def current (workflow : Workflow) (store : TextStore m) (note : Notice → m Unit := silent) :
    ExceptT Error m Located :=
  workflow.locateIn store workflow.configuration.versionFile note

def plan (workflow : Workflow) (store : TextStore m) (trigger : Trigger)
    (branch : String) (note : Notice → m Unit := silent) : ExceptT Error m Plan := do
  let current ← workflow.current store note
  ((workflow.planLog current trigger branch).forM note : m PUnit)
  ExceptT.mk (pure (workflow.planFrom current trigger branch))

def nextVersion (workflow : Workflow) (store : TextStore m) (trigger : Trigger)
    (branch : String) (note : Notice → m Unit := silent) : ExceptT Error m String := do
  let plan ← workflow.plan store trigger branch note
  return plan.next

def update (workflow : Workflow) (store : TextStore m) (next : String)
    (target : Target) (note : Notice → m Unit := silent) : ExceptT Error m Unit := do
  let located ← tryCatch (workflow.locateIn store target note) fun error => do
    note (.notLocated target.path error)
    throw error
  store.writeTarget target (located.splice next)
  note (.updated target.path located.literal next)

def updateAll (workflow : Workflow) (store : TextStore m) (next : String)
    (targets : List Target) (note : Notice → m Unit := silent) :
    ExceptT Error m (List String) :=
  match targets with
  | [] => return []
  | target :: targets => do
      workflow.update store next target note
      let paths ← updateAll workflow store next targets note
      return target.path :: paths

/-- Carries a plan out, and lists the paths of the files that were written.
Files written before a failure stay written. -/
def apply (workflow : Workflow) (store : TextStore m) (plan : Plan)
    (note : Notice → m Unit := silent) : ExceptT Error m (List String) :=
  workflow.updateAll store plan.next workflow.configuration.targets note

end Workflow

end Versioning
