import Versioning.Scheme.Basic

/-!
Reading a scheme from its text.

The text is cut into lexemes: brackets, words (runs of name characters) and
marks (runs of anything else). One pass over the lexemes from left to right
finds the first fault, or pairs every word with the mark before it and yields
the pieces of the scheme. Those pieces are balanced, so they assemble into one
tree.
-/

namespace Versioning

inductive SchemeFault
  | groupAfterSeparator (separator : String)
  | separatorWithoutField (separator : String)
  | unexpectedClosing
  | emptyGroup
  | leadingSeparator (separator : String)
  | optionalLead (name : String)
  | missingSeparator (name : String)
  | duplicateField (name : String)
  | unclosed (count : Nat)
  | noFields
  | tooDeep
  deriving DecidableEq, Repr

def SchemeFault.reason : SchemeFault → String
  | .groupAfterSeparator separator =>
      s!"separator '{separator}' must be inside the optional group it introduces"
  | .separatorWithoutField separator =>
      s!"separator '{separator}' is not followed by a field"
  | .unexpectedClosing => "unexpected ']'"
  | .emptyGroup => "optional group has no field"
  | .leadingSeparator separator =>
      s!"scheme must start with a field, found '{separator}'"
  | .optionalLead name => s!"first field '{name}' cannot be optional"
  | .missingSeparator name => s!"field '{name}' needs a separator"
  | .duplicateField name => s!"duplicate field '{name}'"
  | .unclosed count => s!"{count} unclosed '['"
  | .noFields => "scheme has no fields"
  | .tooDeep => "optional groups are nested too deeply"

/-! ### Lexemes -/

def isNameChar (c : Char) : Bool :=
  c.isAlphanum || c == '_'

inductive Lexeme
  | opening
  | closing
  | word (text : List Char)
  | mark (text : List Char)
  deriving DecidableEq, Repr

def Lexeme.text : Lexeme → List Char
  | .opening => ['[']
  | .closing => [']']
  | .word text => text
  | .mark text => text

def Lexeme.push (c : Char) (later : List Lexeme) : List Lexeme :=
  if c = '[' then
    .opening :: later
  else if c = ']' then
    .closing :: later
  else if isNameChar c then
    match later with
    | .word text :: later => .word (c :: text) :: later
    | later => .word [c] :: later
  else
    match later with
    | .mark text :: later => .mark (c :: text) :: later
    | later => .mark [c] :: later

def Lexeme.ofText (text : List Char) : List Lexeme :=
  text.foldr Lexeme.push []

/-! ### Pieces -/

structure Progress where
  /-- The number of groups that are open. -/
  depth : Nat
  /-- Whether the last piece opened a group. -/
  fresh : Bool
  /-- The names of the fields so far, the last one first. -/
  seen : List String
  /-- The mark that waits for its field, empty when there is none. -/
  pending : List Char
  deriving DecidableEq, Repr

def Progress.start : Progress :=
  { depth := 0, fresh := false, seen := [], pending := [] }

/-- The leading field stands outside every group and has no separator. Every
later field has one, and no name occurs twice. -/
def Progress.checkField (progress : Progress) (name : String) :
    Except SchemeFault Unit :=
  if progress.seen.isEmpty then
    if ! progress.pending.isEmpty then
      .error (.leadingSeparator (String.ofList progress.pending))
    else if progress.depth ≠ 0 then
      .error (.optionalLead name)
    else
      .ok ()
  else if progress.pending.isEmpty then
    .error (.missingSeparator name)
  else if progress.seen.contains name then
    .error (.duplicateField name)
  else
    .ok ()

/-- A group ends where one is open, not right after its opening bracket, and
not between a separator and its field. -/
def Progress.checkClosing (progress : Progress) : Except SchemeFault Unit :=
  if ! progress.pending.isEmpty then
    .error (.separatorWithoutField (String.ofList progress.pending))
  else if progress.depth = 0 then
    .error .unexpectedClosing
  else if progress.fresh then
    .error .emptyGroup
  else
    .ok ()

def Progress.checkOpening (progress : Progress) : Except SchemeFault Unit :=
  if ! progress.pending.isEmpty then
    .error (.groupAfterSeparator (String.ofList progress.pending))
  else
    .ok ()

def Progress.checkEnd (progress : Progress) : Except SchemeFault Unit :=
  if progress.depth ≠ 0 then
    .error (.unclosed progress.depth)
  else if ! progress.pending.isEmpty then
    .error (.separatorWithoutField (String.ofList progress.pending))
  else if progress.seen.isEmpty then
    .error .noFields
  else
    .ok ()

def Piece.ofLexemes (progress : Progress) :
    List Lexeme → Except SchemeFault (List Piece)
  | [] => do
      progress.checkEnd
      return []
  | .opening :: later => do
      progress.checkOpening
      let pieces ← ofLexemes
        { progress with depth := progress.depth + 1, fresh := true } later
      return .opening :: pieces
  | .closing :: later => do
      progress.checkClosing
      let pieces ← ofLexemes
        { progress with depth := progress.depth - 1, fresh := false } later
      return .closing :: pieces
  | .word text :: later => do
      let name := String.ofList text
      progress.checkField name
      let pieces ← ofLexemes
        { progress with
          fresh := false, seen := name :: progress.seen, pending := [] } later
      return .field (String.ofList progress.pending) name :: pieces
  | .mark text :: later =>
      ofLexemes { progress with pending := progress.pending ++ text } later

/-! ### Assembly -/

/-- Builds trees from the right. The first body of the answer is what the
pieces hold at their own level, and each later one belongs to a group that is
open before them, from the inside out. -/
def Body.assemble : List Piece → List Body
  | [] => [.done]
  | .closing :: pieces => .done :: assemble pieces
  | .opening :: pieces =>
      match assemble pieces with
      | inner :: rest :: outer => .group inner rest :: outer
      | unmatched => unmatched
  | .field separator name :: pieces =>
      match assemble pieces with
      | rest :: outer => .field separator name rest :: outer
      | [] => []

def Scheme.parse (text : String) : Except SchemeFault Scheme := do
  let pieces ← Piece.ofLexemes Progress.start (Lexeme.ofText text.toList)
  match Body.assemble pieces with
  | .field _ lead body :: _ => return { lead, body }
  | _ => throw .noFields

end Versioning
