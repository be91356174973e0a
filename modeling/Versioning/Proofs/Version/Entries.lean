import Versioning.Proofs.Keyed
import Versioning.Version

/-!
Versions as finite maps from field names to numbers.
-/

namespace Versioning

namespace Version

def names (version : Version) : List String :=
  version.entries.map Prod.fst

theorem mem_names_iff (version : Version) (name : String) :
    name ∈ version.names ↔ (version.get? name).isSome = true := by
  rw [get?, Option.isSome_map, List.find?_isSome, names, List.mem_map]
  simp only [beq_iff_eq]

theorem names_insert (version : Version) (name : String) (value : UInt64) :
    (version.insert name value).names =
      if name ∈ version.names then version.names else version.names ++ [name] :=
  Keyed.map_fst_set name value version.entries

theorem get?_insert (version : Version) (name other : String) (value : UInt64) :
    (version.insert name value).get? other =
      if other = name then some value else version.get? other :=
  Keyed.find?_set name other value version.entries

theorem value_insert (version : Version) (name other : String) (value : UInt64) :
    (version.insert name value).value other =
      if other = name then value else version.value other := by
  rw [Version.value, get?_insert]
  by_cases same : other = name
  · rw [if_pos same, if_pos same, Option.getD_some]
  · rw [if_neg same, if_neg same, Version.value]

theorem get?_of_mem (version : Version) (name : String) (value : UInt64)
    (member : (name, value) ∈ version.entries) : version.get? name = some value :=
  Keyed.find?_of_mem version.distinct member

private theorem entries_foldl_insert (pairs : List (String × UInt64)) (version : Version)
    (distinct : (pairs.map Prod.fst).Nodup)
    (absent : ∀ name ∈ pairs.map Prod.fst, name ∉ version.entries.map Prod.fst) :
    (pairs.foldl (fun version pair => version.insert pair.1 pair.2) version).entries =
      version.entries ++ pairs := by
  induction pairs generalizing version with
  | nil => exact (List.append_nil _).symm
  | cons pair pairs ih =>
      have parts := List.nodup_cons.mp distinct
      have absences := List.forall_mem_cons.mp absent
      have entries : (version.insert pair.1 pair.2).entries = version.entries ++ [pair] :=
        Keyed.set_of_not_mem pair.2 absences.1
      rw [List.foldl_cons, ih _ parts.2, entries, List.append_assoc, List.singleton_append]
      intro name member known
      rw [entries, List.map_append, List.mem_append] at known
      rcases known with before | here
      · exact absences.2 name member before
      · have same : name = pair.1 := by simpa using here
        exact parts.1 (same ▸ member)

theorem entries_ofPairs (pairs : List (String × UInt64))
    (distinct : (pairs.map Prod.fst).Nodup) : (ofPairs pairs).entries = pairs := by
  rw [ofPairs, entries_foldl_insert pairs empty distinct (by simp [empty])]
  rfl

/-- Versions are equal when the entries of one are found in the other and there
are as many of them. -/
theorem beq_iff (left right : Version) :
    (left == right) = true ↔
      left.size = right.size ∧
        ∀ entry ∈ left.entries, right.get? entry.1 = some entry.2 := by
  change (left.size == right.size &&
    left.entries.all fun entry => right.get? entry.1 == some entry.2) = true ↔ _
  simp only [Bool.and_eq_true, beq_iff_eq, List.all_eq_true]

/-- Versions that give every field the same entry are equal, in whatever order their
entries stand. -/
theorem beq_of_get?_eq {left right : Version} (same : ∀ name, left.get? name = right.get? name) :
    (left == right) = true := by
  have members : left.names.Perm right.names := by
    refine (List.perm_ext_iff_of_nodup left.distinct right.distinct).mpr fun name => ?_
    change name ∈ left.names ↔ name ∈ right.names
    rw [mem_names_iff, mem_names_iff, same]
  refine (beq_iff left right).mpr ⟨?_, ?_⟩
  · have lengths := members.length_eq
    rwa [names, names, List.length_map, List.length_map] at lengths
  · intro entry member
    rw [← same, left.get?_of_mem entry.1 entry.2 member]

end Version

end Versioning
