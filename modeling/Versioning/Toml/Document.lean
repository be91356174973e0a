import Versioning.Toml.Number
import Versioning.Toml.Text

/-!
Reading a TOML document.

A document is a sequence of lines: pairs of a key and a value, and headers that
say which table the pairs after them belong to. Values in brackets and braces
may be nested up to a fixed depth, over which the readers recur.
-/

namespace Versioning

namespace Toml

abbrev ValueReader := List Char → Option (Value × List Char)

/-- Reads the values between square brackets, after the opening bracket or a
comma. A comma may stand after the last value. Every value takes at least one
character, so `fuel` may be the number of characters left. -/
def elements? (value? : ValueReader) : Nat → List Char → Option (List Value × List Char)
  | 0, _ => none
  | fuel + 1, text =>
      match skipFiller false text with
      | ']' :: rest => some ([], rest)
      | text => do
          let (value, rest) ← value? text
          match skipFiller false rest with
          | ',' :: rest => do
              let (values, rest) ← elements? value? fuel rest
              return (value :: values, rest)
          | ']' :: rest => return ([value], rest)
          | _ => none

def pair? (value? : ValueReader) (text : List Char) :
    Option (((List String × String) × Value) × List Char) := do
  let (key, rest) ← dottedKey? text
  let rest ← char? '=' rest
  let (value, rest) ← value? (skipBlanks rest)
  return ((key, value), skipBlanks rest)

def pairs? (value? : ValueReader) (entries : Entries) :
    Nat → List Char → Option (Entries × List Char)
  | 0, _ => none
  | fuel + 1, text => do
      let (((path, key), value), rest) ← pair? value? text
      let (_, entries) ← addPair path key value .braces entries
      match rest with
      | ',' :: rest => pairs? value? entries fuel rest
      | '\x7d' :: rest => return (entries, rest)
      | _ => none

/-- Reads the pairs of a table in braces, after the opening brace. All of them
stand on one line, and no comma follows the last one. -/
def bracedTable? (value? : ValueReader) (text : List Char) : Option (Value × List Char) :=
  match skipBlanks text with
  | '\x7d' :: rest => some (.table .braces [], rest)
  | text => (pairs? value? [] text.length text).map fun (entries, rest) =>
      (.table .braces entries, rest)

def value? : Nat → ValueReader
  | nesting, text =>
      match text with
      | '"' :: _ => (string? text).map fun (text, rest) => (.string (String.ofList text), rest)
      | '\'' :: _ => (string? text).map fun (text, rest) => (.string (String.ofList text), rest)
      | 't' :: 'r' :: 'u' :: 'e' :: rest => some (.boolean true, rest)
      | 'f' :: 'a' :: 'l' :: 's' :: 'e' :: rest => some (.boolean false, rest)
      | '[' :: rest =>
          match nesting with
          | 0 => none
          | nesting + 1 =>
              (elements? (value? nesting) (rest.length + 1) rest).map fun (values, rest) =>
                (.array values, rest)
      | '\x7b' :: rest =>
          match nesting with
          | 0 => none
          | nesting + 1 => bracedTable? (value? nesting) rest
      | _ => number? text

def header? (doubled : Bool) (text : List Char) :
    Option ((List String × String) × List Char) := do
  let (key, rest) ← dottedKey? text
  let rest ← char? ']' rest
  let rest ← if doubled then char? ']' rest else some rest
  return (key, ← restOfLine? rest)

def lines? (header : List String) (root : Entries) : Nat → List Char → Option Entries
  -- Every line takes at least one character, so one more than the length of a text is enough.
  | 0, _ => none
  | fuel + 1, text =>
      match skipBlanks text with
      | [] => some root
      | '#' :: rest => do lines? header root fuel (← restOfLine? ('#' :: rest))
      | '\n' :: rest => lines? header root fuel rest
      | '\r' :: rest => do lines? header root fuel (← lineEnd? ('\r' :: rest))
      | '[' :: '[' :: rest => do
          let ((path, key), rest) ← header? true rest
          let (_, root) ← addElement path key .header root
          lines? (path ++ [key]) root fuel rest
      | '[' :: rest => do
          let ((path, key), rest) ← header? false rest
          let (_, root) ← addTable path key .header root
          lines? (path ++ [key]) root fuel rest
      | text => do
          let (((path, key), value), rest) ← pair? (value? (depthLimit - 1)) text
          let (_, root) ← addUnder header path key value .header root
          lines? header root fuel (← restOfLine? rest)

def skipByteOrderMark : List Char → List Char
  | '\ufeff' :: rest => rest
  | text => text

def parse? (text : String) : Option Entries :=
  let text := skipByteOrderMark text.toList
  lines? [] [] (text.length + 1) text

end Toml

end Versioning
