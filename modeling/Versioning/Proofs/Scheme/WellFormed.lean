import Versioning.Scheme.Parser

/-!
Well-formed schemes.

A name is a nonempty run of name characters, a separator a nonempty run of
characters that are neither name characters nor brackets, and no group is empty.
A tree that keeps to this and names no field twice is a well-formed scheme.
-/

namespace Versioning

/-! ### Runs of characters -/

def IsRun (kind : Char → Bool) (text : List Char) : Prop :=
  text ≠ [] ∧ ∀ c ∈ text, kind c = true

theorem IsRun.cons {kind : Char → Bool} {c : Char} {text : List Char}
    (first : kind c = true) (others : ∀ d ∈ text, kind d = true) :
    IsRun kind (c :: text) :=
  ⟨List.cons_ne_nil c text, List.forall_mem_cons.mpr ⟨first, others⟩⟩

def isMarkChar (c : Char) : Bool :=
  ! isNameChar c && c != '[' && c != ']'

def IsName (text : String) : Prop :=
  IsRun isNameChar text.toList

def IsSeparator (text : String) : Prop :=
  IsRun isMarkChar text.toList

theorem isNameChar_of_isDigit (c : Char) (digit : c.isDigit = true) :
    isNameChar c = true := by
  simp [isNameChar, Char.isAlphanum, digit]

theorem isDigit_eq_false_of_isMarkChar (c : Char) (mark : isMarkChar c = true) :
    c.isDigit = false := by
  cases digit : c.isDigit with
  | false => rfl
  | true =>
      have name := isNameChar_of_isDigit c digit
      simp [isMarkChar, name] at mark

/-! ### Names of pieces -/

def Piece.name? : Piece → Option String
  | .field _ name => some name
  | _ => none

def Piece.names (pieces : List Piece) : List String :=
  pieces.filterMap Piece.name?

theorem Piece.names_append (front back : List Piece) :
    Piece.names (front ++ back) = Piece.names front ++ Piece.names back :=
  List.filterMap_append

namespace Body

theorem pieces_group_append (inner rest : Body) (following : List Piece) :
    (group inner rest).pieces ++ following =
      .opening :: (inner.pieces ++ .closing :: (rest.pieces ++ following)) := by
  simp [pieces]

theorem map_name_fields (body : Body) (depth : Nat) :
    (body.fields depth).map Field.name = Piece.names body.pieces := by
  induction body generalizing depth with
  | done => rfl
  | field separator name rest ih =>
      rw [Body.fields, List.map_cons, ih]
      rfl
  | group inner rest ihInner ihRest =>
      rw [Body.fields, List.map_append, ihInner, ihRest, Body.pieces]
      change _ = Piece.names (inner.pieces ++ .closing :: rest.pieces)
      rw [Piece.names_append]
      rfl

theorem length_fields (body : Body) (depth : Nat) :
    (body.fields depth).length = body.fieldCount := by
  induction body generalizing depth with
  | done => rfl
  | field separator name rest ih =>
      rw [Body.fields, List.length_cons, ih, Body.fieldCount]
  | group inner rest ihInner ihRest =>
      rw [Body.fields, List.length_append, ihInner, ihRest, Body.fieldCount]

/-! ### Well-formed trees -/

inductive WellFormed : Body → Prop
  | done : WellFormed .done
  | field {separator name : String} {rest : Body} :
      IsSeparator separator → IsName name → rest.WellFormed →
        WellFormed (.field separator name rest)
  | group {inner rest : Body} :
      inner ≠ .done → inner.WellFormed → rest.WellFormed →
        WellFormed (.group inner rest)

/-- Whatever a well-formed body holds, there is a field in it at some depth. -/
theorem WellFormed.fieldCount_pos {body : Body} (formed : body.WellFormed)
    (holding : body ≠ .done) : 0 < body.fieldCount := by
  induction formed with
  | done => exact absurd rfl holding
  | field isSeparator isName formedRest ih => exact Nat.succ_pos _
  | group holdingInner formedInner formedRest ihInner ihRest =>
      have inside := ihInner holdingInner
      rw [Body.fieldCount]
      omega

end Body

/-- The leading field has a name, what follows it is well formed, and no two
fields have the same name. -/
structure Scheme.WellFormed (scheme : Scheme) : Prop where
  lead : IsName scheme.lead
  body : scheme.body.WellFormed
  distinct : (scheme.fields.map Field.name).Nodup

theorem Scheme.length_fields (scheme : Scheme) :
    scheme.fields.length = scheme.whole.fieldCount :=
  scheme.whole.length_fields 0

end Versioning
