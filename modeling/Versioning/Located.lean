import Versioning.Rule

/-!
The current version in a text.

The first literal of the scheme is the core. Around it stand the decorations
that rules may have left there: the first of the rules' front texts that the
text before the core ends with, and the first of their back texts that the text
after it starts with.
-/

namespace Versioning

def beforeSuffix? (ending text : String) : Option String :=
  if ending.toList.isSuffixOf text.toList then
    some (String.ofList (text.toList.take (text.toList.length - ending.toList.length)))
  else
    none

def afterPrefix? (start text : String) : Option String :=
  if start.toList.isPrefixOf text.toList then
    some (String.ofList (text.toList.drop start.toList.length))
  else
    none

structure Located where
  before : String
  front : Option String
  core : String
  back : Option String
  after : String
  deriving DecidableEq, Repr

namespace Located

def literal (located : Located) : String :=
  located.front.getD "" ++ located.core ++ located.back.getD ""

def start (located : Located) : Nat :=
  located.before.utf8ByteSize

def stop (located : Located) : Nat :=
  located.start + located.literal.utf8ByteSize

def splice (located : Located) (next : String) : String :=
  located.before ++ next ++ located.after

/-- Takes the first nonempty one of `texts` off the end of the text before the
core. -/
def chooseFront (texts : List String) (before : String) : String × Option String :=
  (texts.findSome? fun text =>
    if text.isEmpty then none
    else (beforeSuffix? text before).map fun shorter => (shorter, some text)).getD
    (before, none)

def chooseBack (texts : List String) (after : String) : Option String × String :=
  (texts.findSome? fun text =>
    if text.isEmpty then none
    else (afterPrefix? text after).map fun shorter => (some text, shorter)).getD
    (none, after)

end Located

/-- The current version in `text`. All rules lend their decorations, whatever
their trigger and branch. -/
def Scheme.locate (scheme : Scheme) (rules : List Rule) (text : String) :
    Except Error Located :=
  match scheme.find? text with
  | none => .error .noMatch
  | some found =>
      let (before, front) := Located.chooseFront (rules.filterMap Rule.front) found.before
      let (back, after) := Located.chooseBack (rules.filterMap Rule.back) found.after
      .ok { before, front, core := found.core, back, after }

end Versioning
