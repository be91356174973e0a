import Versioning.Version.Literal

/-!
Rules that decide how a version changes.

A rule names the event it answers to, the branch it is limited to, the fields
it resets and bumps, and the decoration it puts around the new version. The
rules that match an event act together: every reset of every rule comes first,
then every bump, and the last decoration given wins.
-/

namespace Versioning

inductive Trigger
  | commit
  | manual
  | pullRequest
  | comment
  deriving DecidableEq, Repr

def Trigger.text : Trigger → String
  | .commit => "commit"
  | .manual => "manual"
  | .pullRequest => "pull-request"
  | .comment => "comment"

def Trigger.all : List Trigger :=
  [.commit, .manual, .pullRequest, .comment]

def Trigger.ofText? (text : String) : Option Trigger :=
  all.find? (·.text == text)

def Trigger.ofText (text : String) : Except Error Trigger :=
  match Trigger.ofText? text with
  | some trigger => .ok trigger
  | none => .error (.setting (.unknownTrigger text))

inductive FieldSelection
  | one (name : String)
  | many (names : List String)
  deriving DecidableEq, Repr

def FieldSelection.names : FieldSelection → List String
  | .one name => [name]
  | .many names => names

structure Rule where
  trigger : Trigger
  /-- The only branch the rule answers to, if it is limited to one. -/
  branch : Option String
  bump : Option String
  reset : Option FieldSelection
  /-- The text put before the new version. -/
  front : Option String
  /-- The text put after the new version. -/
  back : Option String
  deriving DecidableEq, Repr

namespace Rule

def matchesEvent (rule : Rule) (trigger : Trigger) (branch : String) : Bool :=
  rule.trigger == trigger && rule.branch.all (· == branch)

def resetNames (rule : Rule) : List String :=
  match rule.reset with
  | some selection => selection.names
  | none => []

def fieldNames (rule : Rule) : List String :=
  rule.resetNames ++ rule.bump.toList

end Rule

/-- The rules that match an event, in the order in which they are declared. -/
def matchingRules (rules : List Rule) (trigger : Trigger) (branch : String) : List Rule :=
  rules.filter (·.matchesEvent trigger branch)

structure Outcome where
  version : Version
  front : Option String
  back : Option String
  deriving Repr

def Outcome.render (scheme : Scheme) (outcome : Outcome) : String :=
  outcome.front.getD "" ++ outcome.version.render scheme ++ outcome.back.getD ""

def Scheme.checkField (scheme : Scheme) (name : String) : Except Error Unit :=
  if (scheme.field? name).isSome then
    .ok ()
  else
    .error (.unknownField name scheme.spelling)

namespace Version

def resetField (scheme : Scheme) (version : Version) (name : String) :
    Except Error Version := do
  scheme.checkField name
  return version.insert name 0

def bumpField (scheme : Scheme) (version : Version) (name : String) :
    Except Error Version := do
  scheme.checkField name
  let current := version.value name
  if current.toNat + 1 < UInt64.size then
    return version.insert name (current + 1)
  else
    throw (.fieldOverflow name (decimalDigits current ++ "+1"))

/-- The joint effect of `rules`: all their resets, then all their bumps, each in
rule order. -/
def applyRules (scheme : Scheme) (rules : List Rule) (version : Version) :
    Except Error Outcome := do
  let cleared ← (rules.flatMap Rule.resetNames).foldlM (resetField scheme) version
  let raised ← (rules.filterMap Rule.bump).foldlM (bumpField scheme) cleared
  return {
    version := raised
    front := (rules.filterMap Rule.front).getLast?
    back := (rules.filterMap Rule.back).getLast? }

end Version

end Versioning
