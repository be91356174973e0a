import Versioning.Error
import Versioning.Scheme.Pattern

/-!
Schemes that were compiled before.

A cache keeps every scheme it compiled under its definition, so that equal
definitions share one scheme. The slot of a scheme in the cache tells shared
schemes from schemes that are merely equal.
-/

namespace Versioning

def Scheme.ofDefinition (definition : String) : Except Error Scheme :=
  match Scheme.compile definition with
  | .ok scheme => .ok scheme
  | .error fault => .error (.malformedScheme definition fault)

structure SchemeCache where
  entries : List (String × Scheme)
  deriving DecidableEq, Repr

/-- A scheme held by a cache. -/
structure SharedScheme where
  slot : Nat
  scheme : Scheme
  deriving DecidableEq, Repr

namespace SchemeCache

def empty : SchemeCache :=
  { entries := [] }

def size (cache : SchemeCache) : Nat :=
  cache.entries.length

def isEmpty (cache : SchemeCache) : Bool :=
  cache.entries.isEmpty

def find? (cache : SchemeCache) (definition : String) : Option SharedScheme :=
  cache.entries.zipIdx.findSome? fun ((known, scheme), slot) =>
    if known = definition then some { slot, scheme } else none

/-- Compiles a definition unless that was done before. A definition that does
not compile leaves the cache as it is. -/
def compile (cache : SchemeCache) (definition : String) :
    Except Error SharedScheme × SchemeCache :=
  match cache.find? definition with
  | some shared => (.ok shared, cache)
  | none =>
      match Scheme.ofDefinition definition with
      | .error error => (.error error, cache)
      | .ok scheme =>
          (.ok { slot := cache.size, scheme },
            { entries := cache.entries ++ [(definition, scheme)] })

end SchemeCache

end Versioning
