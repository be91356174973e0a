import Versioning.Keyed

/-!
Versions: 64-bit numbers filed under field names.

The entries keep the order in which their fields were first set, and no field
has two of them. Two versions are the same when they give every field the same
number, in whatever order their entries stand.
-/

namespace Versioning

/-- The numbers of a version, at most one per field. -/
structure Version where
  entries : List (String × UInt64)
  distinct : (entries.map Prod.fst).Nodup
  deriving Repr

namespace Version

def empty : Version :=
  { entries := [], distinct := List.nodup_nil }

instance : Inhabited Version :=
  ⟨empty⟩

def insert (version : Version) (name : String) (value : UInt64) : Version :=
  { entries := Keyed.set name value version.entries
    distinct := Keyed.nodup_set name value version.distinct }

def ofPairs (pairs : List (String × UInt64)) : Version :=
  pairs.foldl (fun version pair => version.insert pair.1 pair.2) empty

def get? (version : Version) (name : String) : Option UInt64 :=
  (version.entries.find? (·.1 == name)).map Prod.snd

def value (version : Version) (name : String) : UInt64 :=
  (version.get? name).getD 0

def size (version : Version) : Nat :=
  version.entries.length

def isEmpty (version : Version) : Bool :=
  version.entries.isEmpty

/-- Equal sizes and agreement on the entries of one side are enough, because no
field has two entries. -/
instance : BEq Version where
  beq left right :=
    left.size == right.size &&
      left.entries.all fun entry => right.get? entry.1 == some entry.2

end Version

end Versioning
