/-!
Values of a TOML document, and how its tables grow.

A table remembers how it came to be, because that decides what may be added to
it later: a table written in braces is closed, a table with a header of its own
cannot have a second one, and dotted keys extend only tables that dotted keys
made.
-/

namespace Versioning

namespace Toml

inductive Origin
  /-- The top of the document, or a table with a header of its own. -/
  | header
  /-- A table on the way to another table's header. -/
  | implied
  /-- A table on the way of a dotted key. -/
  | dotted
  /-- A table in braces. -/
  | braces
  deriving DecidableEq, Repr

inductive Value
  | string (text : String)
  | integer (value : Int)
  | float (text : String)
  | boolean (value : Bool)
  | datetime (text : String)
  | array (elements : List Value)
  /-- The tables of one doubly bracketed header, in order. -/
  | tables (elements : List Value)
  | table (origin : Origin) (entries : List (String × Value))
  deriving Repr, Inhabited

abbrev Entries := List (String × Value)

namespace Entries

def get? (entries : Entries) (key : String) : Option Value :=
  (entries.find? (·.1 == key)).map Prod.snd

def replace (entries : Entries) (key : String) (value : Value) : Entries :=
  entries.map fun entry => if entry.1 == key then (key, value) else entry

end Entries

abbrev Change := Origin → Entries → Option (Origin × Entries)

def Origin.admits : Origin → Origin → Bool
  | .dotted, .implied => true
  | .dotted, .dotted => true
  | .dotted, _ => false
  | _, .braces => false
  | _, _ => true

/-- Walks along `path`, making the tables that are missing, and applies `change`
at its end. Of several tables under one header the last one is meant. -/
def descend (makes : Origin) (change : Change) : List String → Change
  | [], origin, entries => change origin entries
  | key :: path, origin, entries =>
      match entries.get? key with
      | none => do
          let (inner, content) ← descend makes change path makes []
          return (origin, entries ++ [(key, .table inner content)])
      | some (.table inner content) =>
          if makes.admits inner then do
            let (inner, content) ← descend makes change path inner content
            return (origin, entries.replace key (.table inner content))
          else
            none
      | some (.tables elements) =>
          match elements.getLast? with
          | some (.table inner content) => do
              let (inner, content) ← descend makes change path inner content
              return (origin,
                entries.replace key (.tables (elements.dropLast ++ [.table inner content])))
          | _ => none
      | some _ => none

/-- Adds a value under a dotted key. A key is set once, and a dotted key adds
only to tables that dotted keys made. -/
def addPair (path : List String) (key : String) (value : Value) : Change :=
  descend .dotted (fun origin entries =>
    if (origin == .dotted) == path.isEmpty then none
    else if (entries.get? key).isSome then none
    else some (origin, entries ++ [(key, value)])) path

/-- Opens a table under a header. It may be there already on the way to another
header's table, and then keeps what it holds. -/
def addTable (path : List String) (key : String) : Change :=
  descend .implied (fun origin entries =>
    match entries.get? key with
    | none => some (origin, entries ++ [(key, .table .header [])])
    | some (.table .implied content) =>
        some (origin, entries.replace key (.table .header content))
    | some _ => none) path

def addElement (path : List String) (key : String) : Change :=
  descend .implied (fun origin entries =>
    match entries.get? key with
    | none => some (origin, entries ++ [(key, .tables [.table .header []])])
    | some (.tables elements) =>
        some (origin, entries.replace key (.tables (elements ++ [.table .header []])))
    | some _ => none) path

def addUnder (header path : List String) (key : String) (value : Value) : Change :=
  descend .implied (addPair path key value) header

end Toml

end Versioning
