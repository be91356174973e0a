/-!
The characters of a TOML document: blanks, line ends, comments and strings.

Every reader takes the characters that are left and returns what it read with
the characters after it.
-/

namespace Versioning

namespace Toml

def isBlank (c : Char) : Bool :=
  c == ' ' || c == '\t'

/-- Characters that may stand in comments and strings: all but the control
characters, of which the tab is allowed. -/
def isPlain (c : Char) : Bool :=
  c == '\t' || (0x20 ≤ c.toNat && c.toNat != 0x7F)

def skipBlanks (text : List Char) : List Char :=
  text.dropWhile isBlank

def lineEnd? : List Char → Option (List Char)
  | '\n' :: rest => some rest
  | '\r' :: '\n' :: rest => some rest
  | _ => none

def restOfLine? (text : List Char) : Option (List Char) :=
  let rest :=
    match skipBlanks text with
    | '#' :: comment => comment.dropWhile isPlain
    | rest => rest
  if rest.isEmpty then some [] else lineEnd? rest

def skipFiller (inComment : Bool) : List Char → List Char
  | [] => []
  | '\r' :: '\n' :: rest => skipFiller false rest
  | c :: rest =>
      if inComment && isPlain c then skipFiller true rest
      else if isBlank c || c == '\n' then skipFiller false rest
      else if c == '#' then skipFiller true rest
      else c :: rest

/-! ### Escapes -/

def shortEscape? : Char → Option Char
  | 'b' => some '\x08'
  | 't' => some '\t'
  | 'n' => some '\n'
  | 'f' => some '\x0c'
  | 'r' => some '\r'
  | '"' => some '"'
  | '\\' => some '\\'
  | _ => none

def hexDigit? (c : Char) : Option Nat :=
  if c.isDigit then some (c.toNat - '0'.toNat)
  else if 'a' ≤ c && c ≤ 'f' then some (c.toNat - 'a'.toNat + 10)
  else if 'A' ≤ c && c ≤ 'F' then some (c.toNat - 'A'.toNat + 10)
  else none

def scalar? (digits : List Char) : Option Char := do
  let values ← digits.mapM hexDigit?
  let number := values.foldl (fun number digit => number * 16 + digit) 0
  if number.isValidChar then some (Char.ofNat number) else none

/-! ### Strings -/

abbrev Quoted := Option (List Char × List Char)

def Quoted.push (c : Char) (quoted : Quoted) : Quoted :=
  quoted.map fun (text, rest) => (c :: text, rest)

def basicString : List Char → Quoted
  | [] => none
  | '"' :: rest => some ([], rest)
  | '\\' :: 'u' :: a :: b :: c :: d :: rest => do
      let char ← scalar? [a, b, c, d]
      Quoted.push char (basicString rest)
  | '\\' :: 'U' :: a :: b :: c :: d :: e :: f :: g :: h :: rest => do
      let char ← scalar? [a, b, c, d, e, f, g, h]
      Quoted.push char (basicString rest)
  | '\\' :: c :: rest => do
      let char ← shortEscape? c
      Quoted.push char (basicString rest)
  | c :: rest => if isPlain c then Quoted.push c (basicString rest) else none

/-- Reads a string of several lines after its opening quotes. Up to two quotes
may stand right before the closing ones. With `trimming`, blanks and line ends
are skipped, as they are after a backslash at the end of a line. -/
def multilineString (trimming : Bool) : List Char → Quoted
  | [] => none
  | '"' :: '"' :: '"' :: '"' :: '"' :: rest => some (['"', '"'], rest)
  | '"' :: '"' :: '"' :: '"' :: rest => some (['"'], rest)
  | '"' :: '"' :: '"' :: rest => some ([], rest)
  | '\r' :: '\n' :: rest =>
      if trimming then multilineString true rest
      else Quoted.push '\n' (multilineString false rest)
  | '\\' :: 'u' :: a :: b :: c :: d :: rest => do
      let char ← scalar? [a, b, c, d]
      Quoted.push char (multilineString false rest)
  | '\\' :: 'U' :: a :: b :: c :: d :: e :: f :: g :: h :: rest => do
      let char ← scalar? [a, b, c, d, e, f, g, h]
      Quoted.push char (multilineString false rest)
  | '\\' :: c :: rest =>
      if isBlank c || c == '\n' || c == '\r' then
        if (lineEnd? (skipBlanks (c :: rest))).isSome then multilineString true (c :: rest)
        else none
      else do
        let char ← shortEscape? c
        Quoted.push char (multilineString false rest)
  | c :: rest =>
      if trimming && (isBlank c || c == '\n') then multilineString true rest
      else if isPlain c || c == '\n' then Quoted.push c (multilineString false rest)
      else none

def literalString : List Char → Quoted
  | [] => none
  | '\'' :: rest => some ([], rest)
  | c :: rest => if isPlain c then Quoted.push c (literalString rest) else none

def multilineLiteral : List Char → Quoted
  | [] => none
  | '\'' :: '\'' :: '\'' :: '\'' :: '\'' :: rest => some (['\'', '\''], rest)
  | '\'' :: '\'' :: '\'' :: '\'' :: rest => some (['\''], rest)
  | '\'' :: '\'' :: '\'' :: rest => some ([], rest)
  | '\r' :: '\n' :: rest => Quoted.push '\n' (multilineLiteral rest)
  | c :: rest =>
      if isPlain c || c == '\n' then Quoted.push c (multilineLiteral rest) else none

def dropFirstLineEnd (text : List Char) : List Char :=
  (lineEnd? text).getD text

def string? : List Char → Quoted
  | '"' :: '"' :: '"' :: rest => multilineString false (dropFirstLineEnd rest)
  | '"' :: rest => basicString rest
  | '\'' :: '\'' :: '\'' :: rest => multilineLiteral (dropFirstLineEnd rest)
  | '\'' :: rest => literalString rest
  | _ => none

/-! ### Keys -/

def isBareKey (c : Char) : Bool :=
  c.isAlphanum || c == '_' || c == '-'

def key? (text : List Char) : Quoted :=
  match text with
  | '"' :: rest => basicString rest
  | '\'' :: rest => literalString rest
  | _ =>
      match text.takeWhile isBareKey with
      | [] => none
      | name => some (name, text.dropWhile isBareKey)

def depthLimit : Nat := 80

def keyPath? : Nat → List Char → Option (List String × List Char)
  | 0, _ => none
  | budget + 1, text => do
      let (name, rest) ← key? (skipBlanks text)
      match skipBlanks rest with
      | '.' :: rest => do
          let (names, rest) ← keyPath? budget rest
          return (String.ofList name :: names, rest)
      | rest => return ([String.ofList name], rest)

def dottedKey? (text : List Char) : Option ((List String × String) × List Char) := do
  let (names, rest) ← keyPath? (depthLimit - 1) text
  let last ← names.getLast?
  return ((names.dropLast, last), rest)

end Toml

end Versioning
