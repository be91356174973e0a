import Versioning.Scheme.Parser

/-!
The search pattern of a scheme, and which schemes are shallow enough to match.

A field is its escaped separator followed by a run of ASCII digits, and a group
is an optional part. The pattern is also measured as an expression: a scheme
compiles if that expression is nested no deeper than `nestingLimit`.
-/

namespace Versioning

def patternMarks : List Char :=
  ['\\', '.', '+', '*', '?', '(', ')', '|', '[', ']', '\x7b', '\x7d', '^', '$', '#', '&', '-', '~']

def escapeChar (c : Char) : List Char :=
  if patternMarks.contains c then ['\\', c] else [c]

def escape (text : String) : String :=
  String.ofList (text.toList.flatMap escapeChar)

def Piece.pattern : Piece → String
  | .opening => "(?:"
  | .closing => ")?"
  | .field separator _ => escape separator ++ "([0-9]+)"

def Scheme.pattern (scheme : Scheme) : String :=
  String.join (scheme.pieces.map Piece.pattern)

namespace Body

def parts : Body → Nat
  | .done => 0
  | .field separator _ rest => separator.length + 1 + rest.parts
  | .group _ rest => 1 + rest.parts

def sequenceLevel (parts : Nat) : Nat :=
  if 2 ≤ parts then 1 else 0

/-- The nesting of the deepest single part. A run of digits is a capture, a
repetition and a class; a group is an option and a bracket around its body. -/
def partLevel : Body → Nat
  | .done => 0
  | .field _ _ rest => max 3 rest.partLevel
  | .group inner rest =>
      max (2 + (inner.partLevel + sequenceLevel inner.parts)) rest.partLevel

def level (body : Body) : Nat :=
  body.partLevel + sequenceLevel body.parts

end Body

/-- The nesting of the pattern that matches a whole text: a sequence of the two
ends of the text and, between them, the bracketed pattern of the scheme. -/
def Scheme.level (scheme : Scheme) : Nat :=
  2 + scheme.whole.level

def nestingLimit : Nat := 250

def Scheme.compile (definition : String) : Except SchemeFault Scheme := do
  let scheme ← Scheme.parse definition
  if scheme.level ≤ nestingLimit then
    return scheme
  else
    throw .tooDeep

end Versioning
