import Mathlib.Data.List.DropRight
import Versioning.Path

/-!
Where a path goes, and the directory it stands in.

Only the names in a path tell where it goes, and whether it is absolute. A path that is
joined to another goes on from there, and the parent of a path goes where the path goes
but for its last name.
-/

namespace Versioning

namespace Path

def steps (text : String) : List String :=
  (segments text).filter isName

theorem ne_empty_of_isName {name : String} (named : isName name = true) : name ≠ "" := by
  rintro rfl
  cases named

/-! ### Segments -/

theorem segments_eq_splitOn (text : String) :
    segments text = (text.toList.splitOn separator).map String.ofList := by
  refine congrArg (List.map String.ofList) ?_
  induction text.toList with
  | nil => rfl
  | cons c chars ih =>
      rw [List.foldr_cons, ih, List.splitOn_cons_eq_if_modifyHead]
      by_cases slash : c = separator
      · simp [slash]
      · cases split : chars.splitOn separator with
        | nil => exact absurd split (List.splitOn_ne_nil _ _)
        | cons segment rest => simp [slash]

theorem segments_ne_nil (text : String) : segments text ≠ [] := by
  rw [segments_eq_splitOn]
  exact fun empty => List.splitOn_ne_nil _ _ (List.map_eq_nil_iff.mp empty)

private theorem segments_append (before after : String) :
    segments (before ++ "/" ++ after) = segments before ++ segments after := by
  simp only [segments_eq_splitOn, String.toList_append, List.append_assoc, ← List.map_append]
  exact congrArg _ (List.splitOn_append_cons_self before.toList after.toList)

private theorem separator_not_mem_of_mem_splitOn {chars segment : List Char}
    (member : segment ∈ chars.splitOn separator) : separator ∉ segment := by
  induction chars generalizing segment with
  | nil =>
      rw [List.splitOn_nil, List.mem_singleton] at member
      simp [member]
  | cons c chars ih =>
      rw [List.splitOn_cons_eq_if_modifyHead] at member
      by_cases slash : c = separator
      · rw [if_pos (by simpa using slash), List.mem_cons] at member
        rcases member with rfl | later
        · simp
        · exact ih later
      · rw [if_neg (by simpa using slash)] at member
        cases split : chars.splitOn separator with
        | nil => exact absurd split (List.splitOn_ne_nil _ _)
        | cons first rest =>
            rw [split, List.modifyHead_cons, List.mem_cons] at member
            rcases member with rfl | later
            · have free := ih (split ▸ List.mem_cons_self)
              simp [free, Ne.symm slash]
            · exact ih (split ▸ List.mem_cons_of_mem first later)

private theorem separator_not_mem_of_mem_segments {text segment : String}
    (member : segment ∈ segments text) : separator ∉ segment.toList := by
  rw [segments_eq_splitOn, List.mem_map] at member
  obtain ⟨chars, split, rfl⟩ := member
  rw [String.toList_ofList]
  exact separator_not_mem_of_mem_splitOn split

theorem segments_intercalate {parts : List String} (nonempty : parts ≠ [])
    (free : ∀ part ∈ parts, separator ∉ part.toList) :
    segments ("/".intercalate parts) = parts := by
  rw [segments_eq_splitOn, String.toList_intercalate]
  change ((([separator].intercalate (parts.map String.toList)).splitOn separator).map _) = _
  rw [List.splitOn_intercalate]
  · simp [Function.comp_def]
  · intro chars member
    obtain ⟨part, known, rfl⟩ := List.mem_map.mp member
    exact free part known
  · simpa using nonempty

theorem segments_inj {text other : String} : segments text = segments other ↔ text = other := by
  refine ⟨fun same => ?_, congrArg segments⟩
  simp only [segments_eq_splitOn] at same
  have split := List.map_injective_iff.mpr (fun _ _ => String.ofList_inj.mp) same
  have joined : ∀ chars : List Char, [separator].intercalate (chars.splitOn separator) = chars :=
    fun _ => List.intercalate_splitOn separator
  rw [← String.toList_inj, ← joined text.toList, split, joined]

theorem isAbsolute_iff_segments (text : String) :
    isAbsolute text = true ↔ ∃ next rest, segments text = "" :: next :: rest := by
  rw [segments_eq_splitOn]
  unfold isAbsolute
  cases text.toList with
  | nil => simp
  | cons c chars =>
      rw [List.splitOn_cons_eq_if_modifyHead]
      cases split : chars.splitOn separator with
      | nil => exact absurd split (List.splitOn_ne_nil _ _)
      | cons segment rest =>
          by_cases slash : c = separator
          · simp [slash]
          · simp [slash]

/-! ### Names -/

private theorem steps_empty : steps "" = [] :=
  rfl

theorem steps_append (before after : String) :
    steps (before ++ "/" ++ after) = steps before ++ steps after := by
  rw [steps, segments_append, List.filter_append]
  rfl

theorem steps_intercalate {parts : List String} (free : ∀ part ∈ parts, separator ∉ part.toList) :
    steps ("/".intercalate parts) = parts.filter isName := by
  by_cases empty : parts = []
  · rw [empty]
    rfl
  · rw [steps, segments_intercalate empty free]

/-! ### Joined paths -/

/-- A path that is joined to another goes on from where that one leads. -/
theorem exists_segments_join {path : String} (relative : isAbsolute path = false)
    (base : String) :
    ∃ front, segments (join base path) = front ++ segments path ∧
      front.filter isName = steps base := by
  unfold join
  rw [if_neg (by simp [relative])]
  split
  next closed =>
    rw [Bool.or_eq_true] at closed
    rcases closed with empty | ends
    · rw [String.isEmpty_iff.mp empty, String.empty_append]
      exact ⟨[], rfl, rfl⟩
    · obtain ⟨chars, spelled⟩ := List.getLast?_eq_some_iff.mp (beq_iff_eq.mp ends)
      have same : base = String.ofList chars ++ "/" := by
        rw [← String.toList_inj, spelled]
        simp [separator]
      have above := steps_append (String.ofList chars) ""
      rw [String.append_empty, steps_empty, List.append_nil, ← same] at above
      refine ⟨segments (String.ofList chars), ?_, above.symm⟩
      rw [same, segments_append]
  next => exact ⟨segments base, segments_append base path, rfl⟩

theorem isAbsolute_join {path : String} (relative : isAbsolute path = false) (base : String) :
    isAbsolute (join base path) = isAbsolute base := by
  unfold join
  rw [if_neg (by simp [relative])]
  by_cases empty : base = ""
  · subst empty
    simpa [isAbsolute] using relative
  · have starts : base.toList ≠ [] := by simpa using empty
    unfold isAbsolute
    split
    next => rw [String.toList_append, List.head?_append_of_ne_nil _ starts]
    next =>
      rw [String.append_assoc, String.toList_append, List.head?_append_of_ne_nil _ starts]

/-! ### Parents -/

/-- What is left out at the end of a path says nothing. -/
private theorem exists_trimAbsolute_append (parts : List String) :
    ∃ dropped, parts = trimAbsolute parts ++ dropped ∧ dropped.filter isName = [] := by
  refine ⟨parts.rtakeWhile fun part => ! isName part, ?_, ?_⟩
  · exact List.rdropWhile_append_rtakeWhile.symm
  · rw [List.filter_eq_nil_iff]
    intro part member
    simpa using List.mem_rtakeWhile_imp member

private theorem exists_trimRelative_append (parts : List String) :
    ∃ dropped, parts = trimRelative parts ++ dropped ∧ dropped.filter isName = [] := by
  refine ⟨(parts.zipIdx.rtakeWhile fun entry =>
    ! isName entry.1 && ! (entry.1 == "." && entry.2 == 0)).map Prod.fst, ?_, ?_⟩
  · unfold trimRelative
    rw [← List.map_append]
    exact (List.zipIdx_map_fst 0 parts).symm.trans
      (congrArg _ List.rdropWhile_append_rtakeWhile.symm)
  · rw [List.filter_eq_nil_iff]
    intro part member
    obtain ⟨⟨known, index⟩, taken, rfl⟩ := List.mem_map.mp member
    have dropped := List.mem_rtakeWhile_imp taken
    rw [Bool.and_eq_true] at dropped
    simpa using dropped.1

private theorem trimAbsolute_concat {name : String} (named : isName name = true)
    (front : List String) :
    trimAbsolute (front ++ [name]) = front ++ [name] :=
  List.rdropWhile_concat_neg _ _ _ (by simp [named])

private theorem trimRelative_concat {name : String} (named : isName name = true)
    (front : List String) :
    trimRelative (front ++ [name]) = front ++ [name] := by
  unfold trimRelative
  have kept := List.rdropWhile_concat_neg
    (fun entry => ! isName entry.1 && ! (entry.1 == "." && entry.2 == 0))
    front.zipIdx (name, front.length) (by simp [named])
  rw [List.zipIdx_append, List.zipIdx_singleton, Nat.zero_add]
  exact (congrArg _ kept).trans (by simp)

private theorem steps_intercalate_of_append {parts kept dropped : List String}
    (free : ∀ part ∈ parts, separator ∉ part.toList) (whole : parts = kept ++ dropped)
    (nameless : dropped.filter isName = []) :
    steps ("/".intercalate kept) = parts.filter isName := by
  rw [whole] at free ⊢
  rw [steps_intercalate fun part member => free part (List.mem_append_left _ member),
    List.filter_append, nameless, List.append_nil]

/-- A path that ends with a name has a parent, which is absolute if the path is and goes
where the path goes before that name. -/
theorem exists_parent? {file name : String} {front : List String}
    (split : segments file = front ++ [name]) (named : isName name = true) :
    ∃ parent, parent? file = some parent ∧ isAbsolute parent = isAbsolute file ∧
      steps parent = front.filter isName := by
  have free : ∀ part ∈ front, separator ∉ part.toList := by
    intro part member
    exact separator_not_mem_of_mem_segments (split ▸ List.mem_append_left [name] member)
  by_cases absolute : isAbsolute file = true
  · obtain ⟨next, rest, shape⟩ := (isAbsolute_iff_segments file).mp absolute
    cases front with
    | nil => simp [split] at shape
    | cons first front =>
        obtain ⟨dropped, whole, nameless⟩ := exists_trimAbsolute_append front
        have empty : first = "" := by
          rw [split] at shape
          exact (List.cons.inj shape).1
        refine ⟨"/" ++ "/".intercalate (trimAbsolute front), ?_, ?_, ?_⟩
        · simp [parent?, absolute, split, trimAbsolute_concat named]
        · rw [absolute]
          simp [isAbsolute, separator]
        · have joined := steps_append "" ("/".intercalate (trimAbsolute front))
          rw [String.empty_append, steps_empty, List.nil_append,
            steps_intercalate_of_append (List.forall_mem_cons.mp free).2 whole nameless] at joined
          rw [joined, empty, List.filter_cons_of_neg (by decide)]
  · obtain ⟨dropped, whole, nameless⟩ := exists_trimRelative_append front
    refine ⟨"/".intercalate (trimRelative front), ?_, ?_, ?_⟩
    · simp [parent?, absolute, split, trimRelative_concat named]
    · rw [Bool.eq_false_iff.mpr absolute, Bool.eq_false_iff]
      intro above
      obtain ⟨next, rest, shape⟩ := (isAbsolute_iff_segments _).mp above
      by_cases empty : trimRelative front = []
      · rw [empty] at above
        cases above
      · rw [whole] at free
        rw [segments_intercalate empty fun part member =>
          free part (List.mem_append_left _ member)] at shape
        refine absurd ((isAbsolute_iff_segments file).mpr
          ⟨next, rest ++ dropped ++ [name], ?_⟩) absolute
        rw [split, whole, shape]
        simp
    · exact steps_intercalate_of_append free whole nameless

end Path

end Versioning
