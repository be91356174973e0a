import Mathlib.Data.List.Perm.Subperm
import Versioning.Proofs.Rule.ClosedForm
import Versioning.Proofs.Version.Literal

/-!
Versions are finite maps, and equal versions are equal as maps.

A version comes about by inserts: those of given pairs, one for each field of a literal,
those of rules, and single ones. Whatever their number and order, no field has two
entries, a field has the number that it was given last, and entries stand in the order of
the first insert of their fields.
-/

namespace Versioning

namespace Version

/-! ### Inserts in turn -/

def insertAll (version : Version) (pairs : List (String × UInt64)) : Version :=
  pairs.foldl (fun version pair => version.insert pair.1 pair.2) version

private theorem insertAll_append (version : Version) (front back : List (String × UInt64)) :
    version.insertAll (front ++ back) = (version.insertAll front).insertAll back :=
  List.foldl_append

private theorem sets_insertAll (version : Version) (pairs : List (String × UInt64)) :
    Sets version (pairs.map Prod.fst) (version.insertAll pairs) := by
  induction pairs generalizing version with
  | nil => exact .nothing version
  | cons pair pairs ih => exact .next (ih (version.insert pair.1 pair.2))

private theorem names_ofPairs (pairs : List (String × UInt64)) :
    (ofPairs pairs).names = (pairs.map Prod.fst).eraseDups := by
  have names := (sets_insertAll empty pairs).names_eq
  have all : (pairs.map Prod.fst).filter (· ∉ empty.names) = pairs.map Prod.fst :=
    List.filter_eq_self.mpr fun name _ => rfl
  rw [all] at names
  exact names

def lastGiven? (pairs : List (String × UInt64)) (name : String) : Option UInt64 :=
  (pairs.reverse.find? (·.1 == name)).map Prod.snd

theorem get?_insertAll (version : Version) (pairs : List (String × UInt64)) (name : String) :
    (version.insertAll pairs).get? name = (lastGiven? pairs name).or (version.get? name) := by
  induction pairs generalizing version with
  | nil => rfl
  | cons pair pairs ih =>
      have later := ih (version.insert pair.1 pair.2)
      rw [get?_insert] at later
      change ((version.insert pair.1 pair.2).insertAll pairs).get? name = _
      rw [later, lastGiven?, lastGiven?, List.reverse_cons, List.find?_append]
      cases pairs.reverse.find? (·.1 == name) with
      | some found => rfl
      | none =>
          by_cases same : name = pair.1
          · simp [same]
          · have different : ¬ pair.1 = name := fun equal => same equal.symm
            simp [same, different]

theorem get?_ofPairs (pairs : List (String × UInt64)) (name : String) :
    (ofPairs pairs).get? name = lastGiven? pairs name := by
  have all := get?_insertAll empty pairs name
  rwa [show empty.get? name = none from rfl, Option.or_none] at all

private theorem lastGiven?_eq_some_iff (pairs : List (String × UInt64)) (name : String)
    (value : UInt64) :
    lastGiven? pairs name = some value ↔
      ∃ before after, pairs = before ++ (name, value) :: after ∧ name ∉ after.map Prod.fst := by
  rw [lastGiven?, Option.map_eq_some_iff]
  constructor
  · rintro ⟨⟨found, _⟩, given, rfl⟩
    obtain ⟨same, after, before, split, silent⟩ := List.find?_eq_some_iff_append.mp given
    obtain rfl : found = name := by simpa using same
    refine ⟨before.reverse, after.reverse, ?_, fun member => ?_⟩
    · rw [← pairs.reverse_reverse, split]
      simp
    · obtain ⟨pair, known, same⟩ := List.mem_map.mp member
      have other := silent pair (List.mem_reverse.mp known)
      simp [same] at other
  · rintro ⟨before, after, rfl, silent⟩
    refine ⟨(name, value), List.find?_eq_some_iff_append.mpr ⟨by simp, after.reverse,
      before.reverse, by simp, fun pair member => ?_⟩, rfl⟩
    have other : pair.1 ≠ name := by
      rintro rfl
      exact silent (List.mem_map_of_mem (List.mem_reverse.mp member))
    simpa using other

private theorem lastGiven?_eq_none_iff (pairs : List (String × UInt64)) (name : String) :
    lastGiven? pairs name = none ↔ name ∉ pairs.map Prod.fst := by
  rw [lastGiven?, Option.map_eq_none_iff, List.find?_eq_none, List.mem_map]
  simp only [List.mem_reverse, beq_iff_eq, not_exists, not_and]

private theorem ofPairs_append_singleton (pairs : List (String × UInt64)) (name : String)
    (value : UInt64) : ofPairs (pairs ++ [(name, value)]) = (ofPairs pairs).insert name value :=
  insertAll_append empty pairs [(name, value)]

/-! ### The inserts of literals and rules -/

def bumpPairs : Version → List String → List (String × UInt64)
  | _, [] => []
  | version, name :: names =>
      (name, version.value name + 1) ::
        bumpPairs (version.insert name (version.value name + 1)) names

def rulePairs (version : Version) (rules : List Rule) : List (String × UInt64) :=
  let resets := (rules.flatMap Rule.resetNames).map fun name => (name, 0)
  resets ++ bumpPairs (version.insertAll resets) (rules.filterMap Rule.bump)

private theorem foldlM_resetField_eq_insertAll {scheme : Scheme} {names : List String}
    {version cleared : Version} (done : names.foldlM (resetField scheme) version = .ok cleared) :
    cleared = version.insertAll (names.map fun name => (name, 0)) := by
  induction names generalizing version with
  | nil => exact pure_eq_ok.mp done
  | cons name names ih =>
      rw [List.foldlM_cons] at done
      obtain ⟨middle, first, rest⟩ := bind_eq_ok.mp done
      obtain ⟨_, rfl⟩ := resetField_eq_ok first
      exact ih rest

private theorem foldlM_bumpField_eq_insertAll {scheme : Scheme} {names : List String}
    {version raised : Version} (done : names.foldlM (bumpField scheme) version = .ok raised) :
    raised = version.insertAll (bumpPairs version names) := by
  induction names generalizing version with
  | nil => exact pure_eq_ok.mp done
  | cons name names ih =>
      rw [List.foldlM_cons] at done
      obtain ⟨middle, first, rest⟩ := bind_eq_ok.mp done
      obtain ⟨_, rfl⟩ := bumpField_eq_ok first
      exact ih rest

theorem applyRules_eq_insertAll {scheme : Scheme} {rules : List Rule} {version : Version}
    {outcome : Outcome} (done : version.applyRules scheme rules = .ok outcome) :
    outcome.version = version.insertAll (version.rulePairs rules) := by
  obtain ⟨cleared, resets, rest⟩ := bind_eq_ok.mp done
  obtain ⟨raised, bumps, result⟩ := bind_eq_ok.mp rest
  cases result
  have first := foldlM_resetField_eq_insertAll resets
  subst first
  rw [rulePairs, insertAll_append]
  exact foldlM_bumpField_eq_insertAll bumps

/-- The numbers of a literal are inserted in the order of the scheme. No field of a scheme
is named twice, so each of them becomes an entry at the end. -/
theorem ofLiteral_eq_ofPairs {definition literal : String} {scheme : Scheme}
    {captures : List (Option (List Char))} {version : Version}
    (compiled : Scheme.compile definition = .ok scheme)
    (read : scheme.readWhole? literal.toList = some captures)
    (accepted : ofLiteral scheme literal = .ok version) :
    version = ofPairs ((scheme.fields.map Field.name).zip (captures.map captureValue)) ∧
      version.entries = (scheme.fields.map Field.name).zip (captures.map captureValue) := by
  have formed := Scheme.wellFormed_of_compile compiled
  have fit : ∀ capture ∈ captures, captureNumber capture < UInt64.size := by
    rcases ofLiteral_cases formed read with ⟨_, _, fit, _⟩ | ⟨_, _, failed, _⟩
    · exact fit
    · rw [accepted] at failed
      cases failed
  have pushed := accepted
  rw [ofLiteral_of_readWhole? read, mapM_readEntry_of_lt _ captures fit] at pushed
  obtain ⟨other, same, entries⟩ :=
    ofLiteral_of_chosen formed (formed.chosen_of_readWhole? read) fit
  rw [accepted] at same
  cases same
  exact ⟨(Except.ok.inj pushed).symm, entries⟩

private theorem entries_of_ofLiteral {definition literal : String} {scheme : Scheme}
    {version : Version} (compiled : Scheme.compile definition = .ok scheme)
    (accepted : ofLiteral scheme literal = .ok version) :
    version.names = scheme.fields.map Field.name ∧
      ∃ captures, scheme.readWhole? literal.toList = some captures ∧
        version.entries = (scheme.fields.map Field.name).zip (captures.map captureValue) := by
  cases read : scheme.readWhole? literal.toList with
  | none =>
      rw [(ofLiteral_eq_noMatch_iff scheme literal).mpr read] at accepted
      cases accepted
  | some captures =>
      have entries := (ofLiteral_eq_ofPairs compiled read accepted).2
      obtain ⟨choice, derivation, _⟩ :=
        (Scheme.wellFormed_of_compile compiled).chosen_of_readWhole? read
      have length : (scheme.fields.map Field.name).length =
          (captures.map captureValue).length := by
        rw [List.length_map, List.length_map, derivation.length_captures, scheme.length_fields]
      refine ⟨?_, captures, rfl, entries⟩
      rw [names, entries, List.map_fst_zip (Nat.le_of_eq length)]

/-- How versions come about, with the inserts that were made, in their order. -/
inductive Reached : List (String × UInt64) → Version → Prop
  | empty : Reached [] empty
  | ofPairs (pairs : List (String × UInt64)) : Reached pairs (ofPairs pairs)
  | ofLiteral {definition literal : String} {scheme : Scheme}
      {captures : List (Option (List Char))} {version : Version} :
      Scheme.compile definition = .ok scheme →
      scheme.readWhole? literal.toList = some captures →
      ofLiteral scheme literal = .ok version →
      Reached ((scheme.fields.map Field.name).zip (captures.map captureValue)) version
  | applyRules {history : List (String × UInt64)} {version : Version} {scheme : Scheme}
      {rules : List Rule} {outcome : Outcome} :
      Reached history version → version.applyRules scheme rules = .ok outcome →
      Reached (history ++ version.rulePairs rules) outcome.version
  | insert {history : List (String × UInt64)} {version : Version} (name : String)
      (value : UInt64) :
      Reached history version → Reached (history ++ [(name, value)]) (version.insert name value)

theorem Reached.eq_ofPairs {history : List (String × UInt64)} {version : Version}
    (reached : Reached history version) : version = Version.ofPairs history := by
  induction reached with
  | empty => rfl
  | ofPairs pairs => rfl
  | ofLiteral compiled read accepted => exact (ofLiteral_eq_ofPairs compiled read accepted).1
  | applyRules _ done ih =>
      rw [applyRules_eq_insertAll done, ih]
      exact (insertAll_append Version.empty _ _).symm
  | insert name value _ ih => rw [ofPairs_append_singleton, ← ih]

/-! ### Equality -/

theorem mem_entries_iff (version : Version) (name : String) (value : UInt64) :
    (name, value) ∈ version.entries ↔ version.get? name = some value := by
  refine ⟨version.get?_of_mem name value, fun stored => ?_⟩
  obtain ⟨⟨found, _⟩, present, rfl⟩ := Option.map_eq_some_iff.mp stored
  obtain rfl : found = name := by simpa using List.find?_some present
  exact List.mem_of_find?_eq_some present

theorem nodup_entries (version : Version) : version.entries.Nodup :=
  (List.pairwise_map.mp version.distinct).imp fun different same =>
    different (congrArg Prod.fst same)

theorem beq_iff_perm (left right : Version) :
    (left == right) = true ↔ left.entries.Perm right.entries := by
  rw [beq_iff]
  constructor
  · rintro ⟨sizes, found⟩
    have inside : left.entries ⊆ right.entries := fun entry member =>
      (right.mem_entries_iff entry.1 entry.2).mpr (found entry member)
    exact (List.subperm_of_subset left.nodup_entries inside).perm_of_length_le
      (Nat.le_of_eq sizes.symm)
  · intro same
    refine ⟨same.length_eq, fun entry member => ?_⟩
    exact right.get?_of_mem entry.1 entry.2 (same.mem_iff.mp member)

theorem beq_iff_get?_eq (left right : Version) :
    (left == right) = true ↔ ∀ name, left.get? name = right.get? name := by
  refine ⟨fun same name => Option.ext fun value => ?_, beq_of_get?_eq⟩
  rw [← mem_entries_iff, ← mem_entries_iff, ((beq_iff_perm left right).mp same).mem_iff]

/-- However a version came about, its fields are those that were inserted, each of them once
and in the order of their first inserts, and a field has the number of its last insert. The
entries of a literal are one for each field of its scheme. An insert of a known field leaves
all other entries and their order, and one of a new field adds an entry at the end. Versions
are equal exactly if every field has the same entry in both, so equality is an equivalence,
and the order of the entries does not count. -/
theorem finite_map :
    (∀ history version, Reached history version →
      version.names.Nodup ∧
      version.names = (history.map Prod.fst).eraseDups ∧
      (∀ name value, version.get? name = some value ↔
        ∃ before after, history = before ++ (name, value) :: after ∧
          name ∉ after.map Prod.fst) ∧
      (∀ name, version.get? name = none ↔ name ∉ history.map Prod.fst) ∧
      ∀ name value,
        (name ∈ version.names → ∃ before old after,
          version.entries = before ++ (name, old) :: after ∧
          (version.insert name value).entries = before ++ (name, value) :: after) ∧
        (name ∉ version.names →
          (version.insert name value).entries = version.entries ++ [(name, value)] ∧
          (version.insert name value).size = version.size + 1)) ∧
    (∀ definition literal scheme version, Scheme.compile definition = .ok scheme →
      ofLiteral scheme literal = .ok version →
      version.names = scheme.fields.map Field.name ∧
      ∃ captures, scheme.readWhole? literal.toList = some captures ∧
        version.entries = (scheme.fields.map Field.name).zip (captures.map captureValue)) ∧
    (∀ left right : Version,
      ((left == right) = true ↔ ∀ name, left.get? name = right.get? name) ∧
      ((left == right) = true ↔ left.entries.Perm right.entries)) ∧
    (∀ version : Version, (version == version) = true) ∧
    (∀ left right : Version, (left == right) = true → (right == left) = true) ∧
    ∀ left middle right : Version,
      (left == middle) = true → (middle == right) = true → (left == right) = true := by
  refine ⟨?_, fun _ _ _ _ compiled accepted => entries_of_ofLiteral compiled accepted,
    fun left right => ⟨beq_iff_get?_eq left right, beq_iff_perm left right⟩, ?_, ?_, ?_⟩
  · intro history version reached
    have same := reached.eq_ofPairs
    refine ⟨version.distinct, ?_, ?_, ?_, fun name value => ⟨fun known => ?_, fun absent => ?_⟩⟩
    · rw [same, names_ofPairs]
    · intro name value
      rw [same, get?_ofPairs, lastGiven?_eq_some_iff]
    · intro name
      rw [same, get?_ofPairs, lastGiven?_eq_none_iff]
    · exact Keyed.exists_set_of_mem known value
    · have entries : (version.insert name value).entries = version.entries ++ [(name, value)] :=
        Keyed.set_of_not_mem value absent
      exact ⟨entries, by rw [size, entries, List.length_append]; rfl⟩
  · intro version
    exact (beq_iff_get?_eq version version).mpr fun _ => rfl
  · intro left right same
    exact (beq_iff_get?_eq right left).mpr fun name =>
      ((beq_iff_get?_eq left right).mp same name).symm
  · intro left middle right first second
    exact (beq_iff_get?_eq left right).mpr fun name =>
      ((beq_iff_get?_eq left middle).mp first name).trans
        ((beq_iff_get?_eq middle right).mp second name)

/-- A field that a literal leaves out, then a rule bumps, and then an insert sets. -/
theorem finite_map_bumped_then_set :
    ∃ outcome : Outcome,
      Reached [("a", 1), ("b", 0), ("c", 2), ("d", 3), ("b", 1), ("b", 7), ("x", 9)]
        ((outcome.version.insert "b" 7).insert "x" 9) ∧
      ((outcome.version.insert "b" 7).insert "x" 9).names = ["a", "b", "c", "d", "x"] ∧
      ((outcome.version.insert "b" 7).insert "x" 9).get? "b" = some 7 := by
  let scheme : Scheme := ⟨"a", .group (.field "." "b" .done)
    (.group (.field "." "c" (.field "-" "d" .done)) .done)⟩
  let captures : List (Option (List Char)) :=
    [some ['1'], none, some ['0', '2'], some ['3']]
  let version := Version.ofPairs [("a", 1), ("b", 0), ("c", 2), ("d", 3)]
  let rule : Rule := ⟨.commit, none, some "b", none, none, none⟩
  let outcome : Outcome := ⟨version.insert "b" 1, none, none⟩
  have compiled : Scheme.compile "a[.b][.c-d]" = .ok scheme := by rfl
  have read : scheme.readWhole? "1.02-3".toList = some captures := by rfl
  have accepted : ofLiteral scheme "1.02-3" = .ok version := by rfl
  have done : version.applyRules scheme [rule] = .ok outcome := by rfl
  have bumped := (Reached.ofLiteral compiled read accepted).applyRules done
  have reached := (bumped.insert "b" 7).insert "x" 9
  have map := finite_map.1 _ _ reached
  refine ⟨outcome, reached, map.2.1.trans (by decide), (map.2.2.1 "b" 7).mpr ?_⟩
  exact ⟨[("a", 1), ("b", 0), ("c", 2), ("d", 3), ("b", 1)], [("x", 9)], rfl, by decide⟩

end Version

end Versioning
