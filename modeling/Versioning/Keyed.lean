/-!
Lists of values under keys.

A value is set in place if its key has one, and at the end if it has none. The entries of
a version, the files in memory and the nodes of a tree are kept like this.
-/

namespace Versioning

namespace Keyed

variable {κ ν : Type} [DecidableEq κ]

def set (key : κ) (value : ν) : List (κ × ν) → List (κ × ν)
  | [] => [(key, value)]
  | entry :: entries =>
      if entry.1 = key then (key, value) :: entries else entry :: set key value entries

theorem map_fst_set (key : κ) (value : ν) (entries : List (κ × ν)) :
    (set key value entries).map Prod.fst =
      if key ∈ entries.map Prod.fst then entries.map Prod.fst
      else entries.map Prod.fst ++ [key] := by
  induction entries with
  | nil => rfl
  | cons entry entries ih =>
      by_cases same : entry.1 = key
      · simp [set, same]
      · have different : ¬ key = entry.1 := fun equal => same equal.symm
        rw [set, if_neg same, List.map_cons, ih, List.map_cons]
        simp only [List.mem_cons, different, false_or]
        split
        · rfl
        · rfl

theorem nodup_set (key : κ) (value : ν) {entries : List (κ × ν)}
    (distinct : (entries.map Prod.fst).Nodup) :
    ((set key value entries).map Prod.fst).Nodup := by
  rw [map_fst_set]
  split
  next => exact distinct
  next absent =>
    refine List.nodup_append.mpr ⟨distinct, by simp, ?_⟩
    intro other member last inLast
    rw [List.mem_singleton] at inLast
    rintro rfl
    exact absent (inLast ▸ member)

end Keyed

end Versioning
