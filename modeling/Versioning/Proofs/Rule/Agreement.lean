import Versioning.Proofs.Success
import Versioning.Proofs.Version.Entries
import Versioning.Rule

/-!
What rules and literals depend on.

Rules and literals look at a version only through the numbers it gives to the fields
of the scheme. Versions that agree on these are changed alike and written alike,
whatever else they hold and in whatever order.
-/

namespace Versioning

def Version.SameFields (scheme : Scheme) (left right : Version) : Prop :=
  ∀ field ∈ scheme.fields, left.value field.name = right.value field.name

structure Outcome.SameFields (scheme : Scheme) (left right : Outcome) : Prop where
  version : Version.SameFields scheme left.version right.version
  front : left.front = right.front
  back : left.back = right.back

/-! ### Rules -/

theorem Scheme.checkField_cases (scheme : Scheme) (name : String) :
    scheme.checkField name = .error (.unknownField name scheme.spelling) ∨
      (scheme.checkField name = .ok () ∧ ∃ field ∈ scheme.fields, field.name = name) := by
  unfold checkField
  by_cases known : (scheme.field? name).isSome = true
  · right
    obtain ⟨field, found⟩ := Option.isSome_iff_exists.mp known
    refine ⟨if_pos known, field, List.mem_of_find?_eq_some found, ?_⟩
    simpa using List.find?_some found
  · left
    exact if_neg known

namespace Version

private theorem SameFields.insert {scheme : Scheme} {left right : Version}
    (same : SameFields scheme left right) (name : String) (value : UInt64) :
    SameFields scheme (left.insert name value) (right.insert name value) := by
  intro field member
  rw [value_insert, value_insert]
  split
  · rfl
  · exact same field member

theorem SameFields.of_entries {scheme : Scheme} {read version : Version}
    (entries : read.entries =
      scheme.fields.map fun field => (field.name, version.value field.name)) :
    SameFields scheme read version := by
  intro field member
  have known : (field.name, version.value field.name) ∈ read.entries := by
    rw [entries]
    exact List.mem_map_of_mem member
  rw [Version.value, read.get?_of_mem _ _ known, Option.getD_some]

private theorem agree_resetField (scheme : Scheme) (name : String) (left right : Version)
    (same : SameFields scheme left right) :
    Agree (SameFields scheme) (left.resetField scheme name)
      (right.resetField scheme name) := by
  unfold resetField
  rcases scheme.checkField_cases name with unknown | ⟨known, _⟩
  · rw [unknown]
    exact .failed _
  · rw [known]
    exact .done (same.insert name 0)

private theorem agree_bumpField (scheme : Scheme) (name : String) (left right : Version)
    (same : SameFields scheme left right) :
    Agree (SameFields scheme) (left.bumpField scheme name)
      (right.bumpField scheme name) := by
  unfold bumpField
  rcases scheme.checkField_cases name with unknown | ⟨known, field, member, nameEq⟩
  · rw [unknown]
    exact .failed _
  · have current : left.value name = right.value name := by
      rw [← nameEq]
      exact same field member
    rw [known, current]
    change Agree _ (if _ then _ else _) (if _ then _ else _)
    split
    · exact .done (same.insert name _)
    · exact .failed _

theorem agree_applyRules (scheme : Scheme) (rules : List Rule) {left right : Version}
    (same : SameFields scheme left right) :
    Agree (Outcome.SameFields scheme) (left.applyRules scheme rules)
      (right.applyRules scheme rules) := by
  refine (Agree.foldlM (agree_resetField scheme) _ same).bind ?_
  intro cleared otherCleared sameCleared
  refine (Agree.foldlM (agree_bumpField scheme) _ sameCleared).bind ?_
  intro raised otherRaised sameRaised
  exact .done ⟨sameRaised, rfl, rfl⟩

/-! ### Literals -/

private theorem SameFields.droppable {scheme : Scheme} {left right : Version}
    (same : SameFields scheme left right) {field : Field} (member : field ∈ scheme.fields) :
    left.droppable field = right.droppable field := by
  rw [Version.droppable, Version.droppable, same field member]

private theorem SameFields.cut {scheme : Scheme} {left right : Version}
    (same : SameFields scheme left right) : left.cut scheme = right.cut scheme := by
  have dropped : scheme.fields.reverse.dropWhile left.droppable =
      scheme.fields.reverse.dropWhile right.droppable := by
    have inside : ∀ field ∈ scheme.fields.reverse,
        left.droppable field = right.droppable field :=
      fun field member => same.droppable (List.mem_reverse.mp member)
    generalize scheme.fields.reverse = fields at inside
    induction fields with
    | nil => rfl
    | cons field fields ih =>
        have parts := List.forall_mem_cons.mp inside
        rw [List.dropWhile_cons, List.dropWhile_cons, parts.1, ih parts.2]
  rw [Version.cut, Version.cut, dropped]

theorem SameFields.walk {scheme : Scheme} {left right : Version}
    (same : SameFields scheme left right) (cut skipped : Nat) (tokens : List Token) :
    left.walk scheme.fields cut skipped tokens =
      right.walk scheme.fields cut skipped tokens := by
  have rendered (index : Nat) :
      scheme.fields[index]?.map left.renderField =
        scheme.fields[index]?.map right.renderField := by
    cases found : scheme.fields[index]? with
    | none => rfl
    | some field =>
        have value := same field (List.mem_of_getElem? found)
        rw [Option.map_some, Option.map_some, Version.renderField, Version.renderField, value]
  induction tokens generalizing skipped with
  | nil => rw [Version.walk, Version.walk]
  | cons token tokens ih =>
      cases skipped with
      | zero =>
          cases token with
          | opening =>
              rw [Version.walk, Version.walk]
              cases Token.firstField tokens with
              | none => exact ih 1
              | some first =>
                  simp only
                  rw [ih 0, ih 1]
          | closing => rw [Version.walk, Version.walk, ih 0]
          | field index => rw [Version.walk, Version.walk, rendered, ih 0]
      | succ skipped =>
          cases token with
          | opening => rw [Version.walk, Version.walk, ih]
          | closing => rw [Version.walk, Version.walk, ih]
          | field index => rw [Version.walk, Version.walk, ih]

theorem SameFields.render {scheme : Scheme} {left right : Version}
    (same : SameFields scheme left right) : left.render scheme = right.render scheme := by
  rw [Version.render, Version.render, same.cut, same.walk]

end Version

theorem Outcome.SameFields.render {scheme : Scheme} {left right : Outcome}
    (same : SameFields scheme left right) : left.render scheme = right.render scheme := by
  rw [Outcome.render, Outcome.render, same.front, same.back, same.version.render]

end Versioning
