import Versioning.Keyed

/-!
What is found in a list under keys after a value is set.
-/

namespace Versioning

namespace Keyed

variable {κ ν : Type} [DecidableEq κ]

theorem set_of_not_mem {key : κ} (value : ν) {entries : List (κ × ν)}
    (absent : key ∉ entries.map Prod.fst) : set key value entries = entries ++ [(key, value)] := by
  induction entries with
  | nil => rfl
  | cons entry entries ih =>
      rw [List.map_cons, List.mem_cons, not_or] at absent
      have different : entry.1 ≠ key := fun same => absent.1 same.symm
      rw [set, if_neg different, ih absent.2, List.cons_append]

theorem exists_set_of_mem {key : κ} {entries : List (κ × ν)}
    (known : key ∈ entries.map Prod.fst) (value : ν) :
    ∃ before old after, entries = before ++ (key, old) :: after ∧
      set key value entries = before ++ (key, value) :: after := by
  induction entries with
  | nil => cases known
  | cons entry entries ih =>
      by_cases here : entry.1 = key
      · subst here
        exact ⟨[], entry.2, entries, rfl, by rw [set, if_pos rfl, List.nil_append]⟩
      · rcases List.mem_cons.mp known with same | later
        · exact absurd same.symm here
        · obtain ⟨before, old, after, split, placed⟩ := ih later
          refine ⟨entry :: before, old, after, congrArg (entry :: ·) split, ?_⟩
          rw [set, if_neg here, placed, List.cons_append]

theorem set_set (key : κ) (value new : ν) (entries : List (κ × ν)) :
    set key new (set key value entries) = set key new entries := by
  induction entries with
  | nil => simp [set]
  | cons entry entries ih =>
      by_cases here : entry.1 = key
      · simp [set, here]
      · simp [set, here, ih]

/-- A key that is there keeps its place, so the order in which two are set is not seen. -/
theorem set_comm {key other : κ} (different : key ≠ other) (value otherValue : ν)
    {entries : List (κ × ν)} (present : key ∈ entries.map Prod.fst) :
    set key value (set other otherValue entries) =
      set other otherValue (set key value entries) := by
  induction entries with
  | nil => cases present
  | cons entry entries ih =>
      rw [List.map_cons, List.mem_cons] at present
      by_cases here : entry.1 = key
      · simp [set, here, different]
      · have later := present.resolve_left fun same => here same.symm
        by_cases there : entry.1 = other
        · simp [set, there, different.symm]
        · simp [set, here, there, ih later]

variable [BEq κ] [LawfulBEq κ]

theorem find?_set (key other : κ) (value : ν) (entries : List (κ × ν)) :
    ((set key value entries).find? (·.1 == other)).map Prod.snd =
      if other = key then some value
      else (entries.find? (·.1 == other)).map Prod.snd := by
  induction entries with
  | nil =>
      by_cases same : other = key
      · simp [set, same]
      · have different : ¬ key = other := fun equal => same equal.symm
        simp [set, same, different]
  | cons entry entries ih =>
      by_cases here : entry.1 = key
      · rw [set, if_pos here]
        by_cases same : other = key
        · simp [same]
        · have different : ¬ key = other := fun equal => same equal.symm
          simp [same, different, here]
      · rw [set, if_neg here]
        by_cases found : entry.1 = other
        · have same : ¬ other = key := fun equal => here (found.trans equal)
          simp [found, same]
        · simpa [found] using ih

omit [DecidableEq κ] in
theorem find?_of_mem {key : κ} {value : ν} {entries : List (κ × ν)}
    (distinct : (entries.map Prod.fst).Nodup) (member : (key, value) ∈ entries) :
    (entries.find? (·.1 == key)).map Prod.snd = some value := by
  induction entries with
  | nil => cases member
  | cons entry entries ih =>
      have parts := List.nodup_cons.mp distinct
      rcases List.mem_cons.mp member with same | later
      · subst same
        simp
      · have different : ¬ entry.1 = key := by
          intro same
          exact parts.1 (same ▸ List.mem_map_of_mem later)
        simpa [different] using ih parts.2 later

end Keyed

end Versioning
