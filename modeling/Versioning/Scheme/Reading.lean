import Versioning.Scheme.Pattern

/-!
Reading versions in a text.

`Body.readThen` says what a body reads: a field takes its separator and the
longest run of digits, and a group is read if the rest of the scheme can still
follow it, otherwise it is left out. `Body.rows` computes the same answers for
all suffixes of a text at once, in time proportional to the size of the scheme
times the length of the text, however many groups there are to choose from.
A search takes the first suffix that has a reading.
-/

namespace Versioning

/-- What a body made of a text: the digits of each field in scheme order, none
for a field that was left out, and the text that was not read. -/
structure Reading where
  captures : List (Option (List Char))
  rest : List Char
  deriving DecidableEq, Repr

def Reading.capture (digits : List Char) (reading : Reading) : Reading :=
  { reading with captures := some digits :: reading.captures }

def Reading.skip (count : Nat) (reading : Reading) : Reading :=
  { reading with captures := List.replicate count none ++ reading.captures }

def Reading.extend (digit : Char) (reading : Reading) : Reading :=
  match reading.captures with
  | some digits :: captures => { reading with captures := some (digit :: digits) :: captures }
  | _ => reading

def afterSeparator? : List Char → List Char → Option (List Char)
  | [], text => some text
  | _ :: _, [] => none
  | mark :: separator, c :: text =>
      if mark = c then afterSeparator? separator text else none

/-! ### The meaning of a scheme -/

/-- Reads the longest run of digits at the start of a text, at least one, and
then what follows it. Giving a digit back is never tried, since no separator
starts with a digit. -/
def readDigits (following : List Char → Option Reading) (text : List Char) :
    Option Reading :=
  match text.takeWhile Char.isDigit with
  | [] => none
  | digits => (following (text.dropWhile Char.isDigit)).map (·.capture digits)

def Body.readThen : Body → (List Char → Option Reading) → List Char → Option Reading
  | .done, next, text => next text
  | .field separator _ rest, next, text =>
      match afterSeparator? separator.toList text with
      | some text => readDigits (rest.readThen next) text
      | none => none
  | .group inner rest, next, text =>
      match inner.readThen (rest.readThen next) text with
      | some reading => some reading
      | none => (rest.readThen next text).map (·.skip inner.fieldCount)

def readRest (text : List Char) : Option Reading :=
  some { captures := [], rest := text }

def readEnd (text : List Char) : Option Reading :=
  -- Not even a line end may follow.
  if text.isEmpty then some { captures := [], rest := [] } else none

/-! ### All suffixes at once -/

def suffixes {α : Type} (items : List α) : List (List α) :=
  -- The tails of the list, each made from the one behind it.
  items.foldr (fun item later => (item :: later.headD []) :: later) [[]]

abbrev Row := List (Option Reading)

/-- The answers of a run of digits, given the answers of what follows it. The
outer option tells whether the suffix starts with a digit at all. -/
def digitRuns (text : List Char) (after : Row) : List (Option (Option Reading)) :=
  (text.zip after.tail).foldr
    (fun (c, next) later =>
      (if c.isDigit then
        match later.head? with
        | some (some reading) => some (reading.map (·.extend c))
        | _ => some (next.map (·.capture [c]))
      else
        none) :: later)
    [none]

def separatorRow (separator : List Char) (texts : List (List Char)) (after : Row) : Row :=
  texts.zipWith
    (fun text answers =>
      if separator.isPrefixOf text then (answers.drop separator.length).head?.join else none)
    (suffixes after)

def Body.rows (text : List Char) (texts : List (List Char)) : Body → Row → Row
  | .done, after => after
  | .field separator _ rest, after =>
      let digits := (digitRuns text (rest.rows text texts after)).map Option.join
      separatorRow separator.toList texts digits
  | .group inner rest, after =>
      let without := rest.rows text texts after
      let count := inner.fieldCount
      (inner.rows text texts without).zipWith
        (fun reading skipped =>
          match reading with
          | some reading => some reading
          | none => skipped.map (·.skip count))
        without

def Scheme.rows (scheme : Scheme) (next : List Char → Option Reading)
    (text : List Char) : Row :=
  let texts := suffixes text
  scheme.whole.rows text texts (texts.map next)

/-! ### Searching and splitting -/

def Scheme.readWhole? (scheme : Scheme) (text : List Char) :
    Option (List (Option (List Char))) :=
  ((scheme.rows readEnd text).head?.join).map Reading.captures

structure Occurrence where
  before : String
  core : String
  after : String
  deriving DecidableEq, Repr

def Occurrence.text (found : Occurrence) : String :=
  found.before ++ found.core ++ found.after

def Occurrence.start (found : Occurrence) : Nat :=
  found.before.utf8ByteSize

def Occurrence.stop (found : Occurrence) : Nat :=
  found.start + found.core.utf8ByteSize

/-- The first version in a text: the one that starts first, read as
`Body.readThen` reads it. -/
def Scheme.find? (scheme : Scheme) (text : String) : Option Occurrence := do
  let chars := text.toList
  let (skipped, reading) ←
    (scheme.rows readRest chars).zipIdx.findSome? fun (answer, index) =>
      answer.map fun reading => (index, reading)
  let found := chars.drop skipped
  let length := found.length - reading.rest.length
  return {
    before := String.ofList (chars.take skipped)
    core := String.ofList (found.take length)
    after := String.ofList reading.rest }

end Versioning
