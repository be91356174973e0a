import Versioning.Toml.Value

/-!
Numbers, dates and times in a TOML document.
-/

namespace Versioning

namespace Toml

abbrev Skipped := Option (List Char)

/-! ### Digits -/

def moreDigits (isDigit : Char → Bool) : List Char → List Char × List Char
  | '_' :: c :: rest =>
      if isDigit c then
        let (digits, rest) := moreDigits isDigit rest
        (c :: digits, rest)
      else
        ([], '_' :: c :: rest)
  | c :: rest =>
      if isDigit c then
        let (digits, rest) := moreDigits isDigit rest
        (c :: digits, rest)
      else
        ([], c :: rest)
  | [] => ([], [])

def digits? (isDigit : Char → Bool) : List Char → Option (List Char × List Char)
  | [] => none
  | c :: rest =>
      if isDigit c then
        let (digits, rest) := moreDigits isDigit rest
        some (c :: digits, rest)
      else
        none

def sign : List Char → Bool × List Char
  | '+' :: rest => (false, rest)
  | '-' :: rest => (true, rest)
  | rest => (false, rest)

def decimal? : List Char → Option (List Char × List Char)
  | '0' :: rest => some (['0'], rest)
  | text => digits? Char.isDigit text

/-! ### Integers -/

def isHex (c : Char) : Bool :=
  c.isDigit || ('a' ≤ c && c ≤ 'f') || ('A' ≤ c && c ≤ 'F')

def isOctal (c : Char) : Bool :=
  '0' ≤ c && c ≤ '7'

def isBinary (c : Char) : Bool :=
  c == '0' || c == '1'

def digitValue (c : Char) : Nat :=
  if c.isDigit then c.toNat - '0'.toNat
  else if 'a' ≤ c then c.toNat - 'a'.toNat + 10
  else c.toNat - 'A'.toNat + 10

def digitsValue (base : Nat) (digits : List Char) : Nat :=
  digits.foldl (fun number c => number * base + digitValue c) 0

def inRange (value : Int) : Bool :=
  Int64.minValue.toInt ≤ value && value ≤ Int64.maxValue.toInt

def basedInteger? (base : Nat) (isDigit : Char → Bool) (text : List Char) :
    Option (Int × List Char) := do
  let (digits, rest) ← digits? isDigit text
  return (Int.ofNat (digitsValue base digits), rest)

def signedInteger? (text : List Char) : Option (Int × List Char) := do
  let (negative, rest) := sign text
  let (digits, rest) ← decimal? rest
  let value := Int.ofNat (digitsValue 10 digits)
  return (if negative then -value else value, rest)

def integer? (text : List Char) : Option (Int × List Char) := do
  let (value, rest) ←
    match text with
    | '0' :: 'x' :: rest => basedInteger? 16 isHex rest
    | '0' :: 'o' :: rest => basedInteger? 8 isOctal rest
    | '0' :: 'b' :: rest => basedInteger? 2 isBinary rest
    | _ => signedInteger? text
  if inRange value then return (value, rest) else none

/-! ### Floating point numbers -/

/-- The least number that rounds to infinity in double precision. -/
def overflowBound : Nat :=
  Nat.pow 2 1024 - Nat.pow 2 970

def overflows (digits : List Char) (exponent : Int) : Bool :=
  let significant := digits.dropWhile (· == '0')
  let magnitude := Int.ofNat significant.length + exponent
  if significant.isEmpty || magnitude < 300 then
    false
  else if magnitude > 400 then
    true
  else
    let number := digitsValue 10 significant
    overflowBound * Nat.pow 10 (-exponent).toNat ≤ number * Nat.pow 10 exponent.toNat

def exponent? : List Char → Option (Int × List Char)
  | c :: rest =>
      if c == 'e' || c == 'E' then do
        let (negative, rest) := sign rest
        let (digits, rest) ← digits? Char.isDigit rest
        let value := Int.ofNat (digitsValue 10 digits)
        return (if negative then -value else value, rest)
      else
        none
  | [] => none

def fraction? : List Char → Option ((List Char × Int) × List Char)
  | '.' :: rest => do
      let (digits, rest) ← digits? Char.isDigit rest
      match exponent? rest with
      | some (exponent, rest) => return ((digits, exponent), rest)
      | none => return ((digits, 0), rest)
  | rest => do
      let (exponent, rest) ← exponent? rest
      return (([], exponent), rest)

def special? : List Char → Skipped
  | 'i' :: 'n' :: 'f' :: rest => some rest
  | 'n' :: 'a' :: 'n' :: rest => some rest
  | _ => none

/-- A number too large for double precision is refused, unless it is
negative. -/
def float? (text : List Char) : Skipped := do
  let (negative, rest) := sign text
  match special? rest with
  | some rest => return rest
  | none =>
      let (whole, rest) ← decimal? rest
      let ((digits, exponent), rest) ← fraction? rest
      if ! negative && overflows (whole ++ digits) (exponent - digits.length) then none
      else return rest

/-! ### Dates and times -/

def fixed? : Nat → List Char → Option (Nat × List Char)
  | count, text =>
      let digits := text.take count
      if digits.length == count && digits.all Char.isDigit then
        some (digitsValue 10 digits, text.drop count)
      else
        none

def char? (expected : Char) : List Char → Skipped
  | c :: rest => if c = expected then some rest else none
  | [] => none

def isLeapYear (year : Nat) : Bool :=
  year % 4 == 0 && (year % 100 != 0 || year % 400 == 0)

def daysInMonth (year month : Nat) : Nat :=
  if month == 2 then (if isLeapYear year then 29 else 28)
  else if [4, 6, 9, 11].contains month then 30
  else 31

def date? (text : List Char) : Skipped := do
  let (year, rest) ← fixed? 4 text
  let (month, rest) ← fixed? 2 (← char? '-' rest)
  let (day, rest) ← fixed? 2 (← char? '-' rest)
  if 1 ≤ month && month ≤ 12 && 1 ≤ day && day ≤ daysInMonth year month then some rest
  else none

def clock? (text : List Char) : Skipped := do
  let (hour, rest) ← fixed? 2 text
  let (minute, rest) ← fixed? 2 (← char? ':' rest)
  if hour ≤ 23 && minute ≤ 59 then some rest else none

def time? (text : List Char) : Skipped := do
  let rest ← clock? text
  let (second, rest) ← fixed? 2 (← char? ':' rest)
  -- A leap second has the number 60.
  if 60 < second then
    none
  else
    match rest with
    | '.' :: c :: fraction =>
        if c.isDigit then some (fraction.dropWhile Char.isDigit) else some rest
    | _ => some rest

def offset? : List Char → Skipped
  | 'Z' :: rest => some rest
  | 'z' :: rest => some rest
  | '+' :: rest => clock? rest
  | '-' :: rest => clock? rest
  | _ => none

def datetime? (text : List Char) : Skipped :=
  match date? text with
  | none => time? text
  | some rest =>
      match rest with
      | [] => some []
      | c :: after =>
          if c == 'T' || c == 't' || c == ' ' then
            match time? after with
            | some after => some ((offset? after).getD after)
            | none => some rest
          else
            some rest

/-! ### All of them -/

def readText (text rest : List Char) : String :=
  String.ofList (text.take (text.length - rest.length))

def number? (text : List Char) : Option (Value × List Char) :=
  match datetime? text with
  | some rest => some (.datetime (readText text rest), rest)
  | none =>
      match float? text with
      | some rest => some (.float (readText text rest), rest)
      | none => (integer? text).map fun (value, rest) => (.integer value, rest)

end Toml

end Versioning
