/-!
Version schemes such as `major.minor[.build[-commit]]`.

A scheme is a tree: a leading field, then separated fields and optional groups.
This module holds the tree and its flat views: the pieces in the order of the
text, the spelling, the fields with their bracket depth, and the stream of
tokens in which a field stands for its index.
-/

namespace Versioning

/-- What follows the leading field of a scheme, or stands between two brackets.
The first field or group is at the root and `rest` holds its later siblings. -/
inductive Body
  | done
  | field (separator name : String) (rest : Body)
  | group (inner rest : Body)
  deriving DecidableEq, Repr, Inhabited

structure Scheme where
  lead : String
  body : Body
  deriving DecidableEq, Repr, Inhabited

structure Field where
  name : String
  separator : String
  depth : Nat
  deriving DecidableEq, Repr

def Field.required (field : Field) : Bool :=
  field.depth == 0

inductive Piece
  | opening
  | closing
  | field (separator name : String)
  deriving DecidableEq, Repr

def Piece.spelling : Piece → String
  | .opening => "["
  | .closing => "]"
  | .field separator name => separator ++ name

inductive Token
  | opening
  | closing
  | field (index : Nat)
  deriving DecidableEq, Repr

def Token.index? : Token → Option Nat
  | .field index => some index
  | _ => none

/-- The fields of `pieces` are numbered from `next` on, from left to right. -/
def Token.number (next : Nat) : List Piece → List Token
  | [] => []
  | .opening :: pieces => .opening :: number next pieces
  | .closing :: pieces => .closing :: number next pieces
  | .field _ _ :: pieces => .field next :: number (next + 1) pieces

def Token.firstField (tokens : List Token) : Option Nat :=
  tokens.findSome? Token.index?

/-- The first field at or after `position`; at an opening bracket this is the
first field of its group. A position past the end has no answer. -/
def Token.firstFieldFrom? (tokens : List Token) (position : Nat) : Option (Option Nat) :=
  if position ≤ tokens.length then
    some (firstField (tokens.drop position))
  else
    none

namespace Body

def pieces : Body → List Piece
  | .done => []
  | .field separator name rest => .field separator name :: rest.pieces
  | .group inner rest => .opening :: (inner.pieces ++ .closing :: rest.pieces)

def fields (depth : Nat) : Body → List Field
  | .done => []
  | .field separator name rest => ⟨name, separator, depth⟩ :: rest.fields depth
  | .group inner rest => inner.fields (depth + 1) ++ rest.fields depth

def fieldCount : Body → Nat
  | .done => 0
  | .field _ _ rest => rest.fieldCount + 1
  | .group inner rest => inner.fieldCount + rest.fieldCount

end Body

namespace Scheme

def whole (scheme : Scheme) : Body :=
  .field "" scheme.lead scheme.body

def pieces (scheme : Scheme) : List Piece :=
  scheme.whole.pieces

def spelling (scheme : Scheme) : String :=
  String.join (scheme.pieces.map Piece.spelling)

def fields (scheme : Scheme) : List Field :=
  scheme.whole.fields 0

def tokens (scheme : Scheme) : List Token :=
  Token.number 0 scheme.pieces

def field? (scheme : Scheme) (name : String) : Option Field :=
  scheme.fields.find? (·.name == name)

def optionalFields (scheme : Scheme) : List (String × String) :=
  (scheme.fields.filter (! ·.required)).map fun field =>
    (field.name, field.separator ++ field.name)

def firstFieldFrom? (scheme : Scheme) (position : Nat) : Option (Option Nat) :=
  Token.firstFieldFrom? scheme.tokens position

end Scheme

end Versioning
