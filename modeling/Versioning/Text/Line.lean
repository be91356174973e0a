/-!
Lines of a text.

A text is cut after every line feed, so each piece but the last ends with one;
putting the pieces together gives the text again. A line is a piece without its
terminator, which is a line feed with a carriage return before it if there is
one. A carriage return at the very end of a text belongs to its line.
-/

namespace Versioning

/-- A line with the terminator that ends it, which is empty at the end of a text
without one. -/
structure Line where
  body : List Char
  terminator : List Char
  deriving DecidableEq, Repr

namespace Line

def text (line : Line) : List Char :=
  line.body ++ line.terminator

def cut (text : List Char) : List (List Char) :=
  text.foldr
    (fun c later =>
      if c = '\n' then
        [c] :: later
      else
        match later with
        | piece :: rest => (c :: piece) :: rest
        | [] => [[c]])
    []

def ofPiece (piece : List Char) : Line :=
  if ['\r', '\n'].isSuffixOf piece then
    { body := piece.dropLast.dropLast, terminator := ['\r', '\n'] }
  else if ['\n'].isSuffixOf piece then
    { body := piece.dropLast, terminator := ['\n'] }
  else
    { body := piece, terminator := [] }

def ofText (text : List Char) : List Line :=
  (cut text).map ofPiece

def place (count : Nat) (number : Option Nat) : Nat :=
  -- Line zero stands for the first line, and a number past the end for the last one.
  min (max (number.getD 1) 1 - 1) (count - 1)

def select (text : String) (number : Option Nat) : String :=
  let lines := ofText text.toList
  match lines[place lines.length number]? with
  | some line => String.ofList line.body
  | none => ""

/-- The text with the selected line replaced and its terminator kept. An empty
text becomes the replacement. -/
def replace (text : String) (number : Option Nat) (replacement : String) : String :=
  match ofText text.toList with
  | [] => replacement
  | lines =>
      let changed := lines.modify (place lines.length number) fun line =>
        { line with body := replacement.toList }
      String.ofList (changed.flatMap Line.text)

end Line

end Versioning
