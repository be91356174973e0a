import Versioning.Error
import Versioning.Scheme.Reading
import Versioning.Version

/-!
Versions as text.

Reading splits a literal into the numbers of its fields, where a field that was
left out is zero. Writing drops the longest run of optional zero fields at the
end, as far as whole groups allow.
-/

namespace Versioning

def decimalValue (digits : List Char) : Nat :=
  Nat.ofDigitChars 10 digits 0

def decimalDigits (value : UInt64) : String :=
  String.ofList (Nat.toDigits 10 value.toNat)

def readField (name : String) : Option (List Char) → Except Error UInt64
  | none => .ok 0
  | some digits =>
      let value := decimalValue digits
      if value < UInt64.size then
        .ok (UInt64.ofNat value)
      else
        .error (.fieldOverflow name (String.ofList digits))

namespace Version

/-- The numbers of a whole literal, one per field of the scheme and in its
order. Of several numbers that do not fit, the first one is reported. -/
def ofLiteral (scheme : Scheme) (literal : String) : Except Error Version :=
  match scheme.readWhole? literal.toList with
  | none => .error .noMatch
  | some captures => do
      let names := scheme.fields.map Field.name
      let pairs ← (names.zip captures).mapM fun (name, capture) => do
        let value ← readField name capture
        return (name, value)
      return ofPairs pairs

def droppable (version : Version) (field : Field) : Bool :=
  ! field.required && version.value field.name == 0

def cut (scheme : Scheme) (version : Version) : Nat :=
  (scheme.fields.reverse.dropWhile version.droppable).length

def renderField (version : Version) (field : Field) : String :=
  field.separator ++ decimalDigits (version.value field.name)

/-- Walks the tokens and leaves out every group whose first field is at or after
`cut`. The second argument counts the groups that are open inside the one being
left out, that one included, and is zero outside. -/
def walk (version : Version) (fields : List Field) (cut : Nat) :
    Nat → List Token → List String
  | _, [] => []
  | 0, .opening :: tokens =>
      match Token.firstField tokens with
      | some first =>
          if first < cut then walk version fields cut 0 tokens
          else walk version fields cut 1 tokens
      | none => walk version fields cut 1 tokens
  | 0, .closing :: tokens => walk version fields cut 0 tokens
  | 0, .field index :: tokens =>
      (fields[index]?.map version.renderField).getD "" :: walk version fields cut 0 tokens
  | skipped + 1, .opening :: tokens => walk version fields cut (skipped + 2) tokens
  | skipped + 1, .closing :: tokens => walk version fields cut skipped tokens
  | skipped + 1, .field _ :: tokens => walk version fields cut (skipped + 1) tokens

def render (scheme : Scheme) (version : Version) : String :=
  String.join (version.walk scheme.fields (version.cut scheme) 0 scheme.tokens)

end Version

end Versioning
