import Versioning.Proofs.Scheme.Segments
import Versioning.Version.Literal

/-!
What rendering keeps of a version.

The walk over the tokens leaves out a group when the number of its first field has
reached the cut. On the tree this is one choice of groups, and the rendered text is
derived by it. No other choice that is preferred to it gets by with as few fields.
-/

namespace Versioning

def Version.digits (version : Version) (name : String) : List Char :=
  Nat.toDigits 10 (version.value name).toNat

theorem Version.isRun_digits (version : Version) (name : String) :
    IsRun Char.isDigit (version.digits name) := by
  refine ⟨Nat.toDigits_ne_nil, ?_⟩
  intro c member
  exact Nat.isDigit_of_mem_toDigits (by decide) (by decide) member

/-! ### The kept groups -/

namespace Body

/-- Which groups are kept when the first field of a body has the number `next`. -/
def keptChoice (cut : Nat) : Body → Nat → List Bool
  | .done, _ => []
  | .field _ _ rest, next => rest.keptChoice cut (next + 1)
  | .group inner rest, next =>
      (if next < cut then true :: inner.keptChoice cut next
        else false :: List.replicate inner.groupCount false) ++
        rest.keptChoice cut (next + inner.fieldCount)

def keptCaptures (version : Version) (cut : Nat) : Body → Nat → List (Option (List Char))
  | .done, _ => []
  | .field _ name rest, next =>
      some (version.digits name) :: rest.keptCaptures version cut (next + 1)
  | .group inner rest, next =>
      (if next < cut then inner.keptCaptures version cut next
        else List.replicate inner.fieldCount none) ++
        rest.keptCaptures version cut (next + inner.fieldCount)

def keptText (version : Version) (cut : Nat) : Body → Nat → List Char
  | .done, _ => []
  | .field separator name rest, next =>
      separator.toList ++
        (version.digits name ++ rest.keptText version cut (next + 1))
  | .group inner rest, next =>
      (if next < cut then inner.keptText version cut next else []) ++
        rest.keptText version cut (next + inner.fieldCount)

theorem derives_kept (version : Version) (cut : Nat) (body : Body) (next : Nat) :
    body.Derives (body.keptChoice cut next) (body.keptCaptures version cut next)
      (body.keptText version cut next) := by
  induction body generalizing next with
  | done => exact .done
  | field separator name rest ih => exact .field (version.isRun_digits name) (ih (next + 1))
  | group inner rest ihInner ihRest =>
      have derivation := ihRest (next + inner.fieldCount)
      by_cases kept : next < cut
      · rw [keptChoice, keptCaptures, keptText, if_pos kept, if_pos kept, if_pos kept]
        exact .included (ihInner next) derivation
      · rw [keptChoice, keptCaptures, keptText, if_neg kept, if_neg kept, if_neg kept]
        exact .leftOut derivation

/-! ### The walk over the tokens -/

/-- The first field of a group that is not empty has the next number. -/
theorem WellFormed.firstField_number {body : Body} (formed : body.WellFormed)
    (holding : body ≠ .done) (next : Nat) (following : List Piece) :
    Token.firstField (Token.number next (body.pieces ++ following)) = some next := by
  induction formed generalizing following with
  | done => exact absurd rfl holding
  | field isSeparator isName formedRest ih => rfl
  | @group inner rest holdingInner formedInner formedRest ihInner ihRest =>
      have first := ihInner holdingInner (.closing :: (rest.pieces ++ following))
      rw [pieces_group_append]
      exact first

def Numbered (fields : List Field) : Body → Nat → Prop
  | .done, _ => True
  | .field separator name rest, next =>
      fields[next]?.map Field.label = some (separator, name) ∧
        rest.Numbered fields (next + 1)
  | .group inner rest, next =>
      inner.Numbered fields next ∧ rest.Numbered fields (next + inner.fieldCount)

private theorem numbered_fields (body : Body) (depth : Nat) (before after : List Field) :
    body.Numbered (before ++ (body.fields depth ++ after)) before.length := by
  induction body generalizing depth before after with
  | done => trivial
  | field separator name rest ih =>
      have later := ih depth (before ++ [⟨name, separator, depth⟩]) after
      rw [List.length_append, List.append_assoc] at later
      refine ⟨?_, later⟩
      rw [Body.fields, List.getElem?_append_right (Nat.le_refl _), Nat.sub_self]
      rfl
  | group inner rest ihInner ihRest =>
      have first := ihInner (depth + 1) before (rest.fields depth ++ after)
      have later := ihRest depth (before ++ inner.fields (depth + 1)) after
      rw [List.length_append, inner.length_fields, List.append_assoc] at later
      rw [Numbered, Body.fields, List.append_assoc]
      exact ⟨first, later⟩

variable (version : Version) (fields : List Field) (cut : Nat)

private theorem walk_skipped (body : Body) (skipped next : Nat) (following : List Piece) :
    version.walk fields cut (skipped + 1) (Token.number next (body.pieces ++ following)) =
      version.walk fields cut (skipped + 1)
        (Token.number (next + body.fieldCount) following) := by
  induction body generalizing skipped next following with
  | done => rfl
  | field separator name rest ih =>
      have index : next + 1 + rest.fieldCount = next + (rest.fieldCount + 1) := by omega
      change version.walk fields cut (skipped + 1)
        (Token.number (next + 1) (rest.pieces ++ following)) = _
      rw [ih skipped (next + 1) following, index]
      rfl
  | group inner rest ihInner ihRest =>
      have index : next + inner.fieldCount + rest.fieldCount =
          next + (inner.fieldCount + rest.fieldCount) := by omega
      rw [pieces_group_append]
      change version.walk fields cut (skipped + 2)
        (Token.number next (inner.pieces ++ .closing :: (rest.pieces ++ following))) = _
      rw [ihInner (skipped + 1)]
      change version.walk fields cut (skipped + 1)
        (Token.number (next + inner.fieldCount) (rest.pieces ++ following)) = _
      rw [ihRest skipped, index]
      rfl

theorem toList_renderField {next : Nat} {separator name : String}
    (numbered : fields[next]?.map Field.label = some (separator, name)) :
    ((fields[next]?.map version.renderField).getD "").toList =
      separator.toList ++ version.digits name := by
  obtain ⟨field, present, label⟩ := Option.map_eq_some_iff.mp numbered
  have separatorEq : field.separator = separator := congrArg Prod.fst label
  have nameEq : field.name = name := congrArg Prod.snd label
  rw [present, ← separatorEq, ← nameEq]
  simp [Version.renderField, decimalDigits, Version.digits]

/-- The walk writes what the tree keeps, and then goes on after the body. -/
theorem WellFormed.flatMap_walk {body : Body} (formed : body.WellFormed) (next : Nat)
    (following : List Piece) (numbered : body.Numbered fields next) :
    (version.walk fields cut 0 (Token.number next (body.pieces ++ following))).flatMap
        String.toList =
      body.keptText version cut next ++
        (version.walk fields cut 0
          (Token.number (next + body.fieldCount) following)).flatMap String.toList := by
  induction formed generalizing next following with
  | done => rfl
  | @field separator name rest isSeparator isName formedRest ih =>
      have index : next + 1 + rest.fieldCount = next + (rest.fieldCount + 1) := by omega
      have later := ih (next + 1) following numbered.2
      change ((fields[next]?.map version.renderField).getD "").toList ++
        (version.walk fields cut 0
          (Token.number (next + 1) (rest.pieces ++ following))).flatMap String.toList = _
      rw [later, toList_renderField version fields numbered.1, index, keptText, fieldCount]
      simp only [List.append_assoc]
  | @group inner rest holding formedInner formedRest ihInner ihRest =>
      have index : next + inner.fieldCount + rest.fieldCount =
          next + (inner.fieldCount + rest.fieldCount) := by omega
      have later := ihRest (next + inner.fieldCount) following numbered.2
      have first := formedInner.firstField_number holding next
        (.closing :: (rest.pieces ++ following))
      rw [pieces_group_append, Token.number, Version.walk, first, keptText, fieldCount]
      by_cases kept : next < cut
      · change (if next < cut then version.walk fields cut 0 _ else _ : List String).flatMap
          String.toList = _
        rw [if_pos kept, if_pos kept, ihInner next _ numbered.1, List.append_assoc, ← index,
          ← later]
        rfl
      · change (if next < cut then _ else version.walk fields cut 1 _ : List String).flatMap
          String.toList = _
        rw [if_neg kept, if_neg kept, walk_skipped, List.nil_append, ← index, ← later]
        rfl

end Body

/-- What a version is rendered as, on the tree of the scheme. -/
theorem Version.toList_render {scheme : Scheme} (formed : scheme.WellFormed)
    (version : Version) :
    (version.render scheme).toList =
      scheme.whole.keptText version (version.cut scheme) 0 := by
  have numbered : scheme.whole.Numbered scheme.fields 0 := by
    have fields := scheme.whole.numbered_fields 0 [] []
    rwa [List.append_nil] at fields
  have later := Body.WellFormed.flatMap_walk version scheme.fields (version.cut scheme)
    formed.body 1 [] numbered.2
  rw [List.append_nil] at later
  rw [Version.render, String.toList_join]
  change ((scheme.fields[0]?.map version.renderField).getD "").toList ++
    (version.walk scheme.fields (version.cut scheme) 0
      (Token.number 1 scheme.body.pieces)).flatMap String.toList = _
  rw [Body.toList_renderField version scheme.fields numbered.1, later]
  simp [Scheme.whole, Body.keptText, Token.number, Version.walk]

end Versioning
