import Versioning.Proofs.Rule.ClosedForm
import Versioning.Proofs.Scheme.Parsing

/-!
Rules that lead forward.

A rule leads forward if it resets only fields behind the one that it bumps. Of several such
rules none resets the first field that any of them bumps, nor a field before that one, in
whatever order the rules stand. So the numbers of a version, read in the order of the scheme,
become larger: the first bumped field is raised and the fields before it are kept.
-/

namespace Versioning

def Scheme.Precedes (scheme : Scheme) (earlier later : String) : Prop :=
  [earlier, later].Sublist (scheme.fields.map Field.name)

instance (scheme : Scheme) (earlier later : String) : Decidable (scheme.Precedes earlier later) :=
  inferInstanceAs (Decidable ([earlier, later].Sublist _))

/-- The rule resets only fields that come after the one it bumps. -/
def Rule.LeadsForward (scheme : Scheme) (rule : Rule) : Prop :=
  ∀ name ∈ rule.resetNames, ∃ bumped ∈ rule.bump, scheme.Precedes bumped name

instance (scheme : Scheme) (rule : Rule) : Decidable (rule.LeadsForward scheme) :=
  inferInstanceAs (Decidable (∀ name ∈ rule.resetNames, ∃ bumped ∈ rule.bump, _))

def Version.numbers (scheme : Scheme) (version : Version) : List UInt64 :=
  scheme.fields.map fun field => version.value field.name

private theorem mem_of_pair_sublist {front back : List String} {earlier name : String}
    (distinct : (front ++ name :: back).Nodup)
    (pair : [earlier, name].Sublist (front ++ name :: back)) : earlier ∈ front := by
  have absent : name ∉ back := (List.nodup_cons.mp (List.nodup_append.mp distinct).2.1).1
  obtain ⟨first, second, split, inFront, inBack⟩ := List.sublist_append_iff.mp pair
  cases first with
  | nil =>
      rw [List.nil_append] at split
      subst split
      cases inBack with
      | cons _ later => exact absurd (later.subset (by simp)) absent
      | cons_cons _ later => exact absurd (later.subset (by simp)) absent
  | cons other first =>
      have same := (List.cons.inj split).1
      subst same
      exact inFront.subset (List.mem_cons_self ..)

section Bumped

variable {scheme : Scheme} {rules : List Rule}

/-- If the rules bump a field of the scheme, there is a first one that they bump. -/
private theorem exists_first_bumped {name : String} (bumped : name ∈ rules.filterMap Rule.bump)
    (known : name ∈ scheme.fields.map Field.name) :
    ∃ before first after, scheme.fields = before ++ first :: after ∧
      first.name ∈ rules.filterMap Rule.bump ∧
      ∀ field ∈ before, field.name ∉ rules.filterMap Rule.bump := by
  obtain ⟨field, member, rfl⟩ := List.mem_map.mp known
  have found : (scheme.fields.find? (·.name ∈ rules.filterMap Rule.bump)).isSome = true :=
    List.find?_isSome.mpr ⟨field, member, by simpa using bumped⟩
  obtain ⟨first, found⟩ := Option.isSome_iff_exists.mp found
  obtain ⟨isBumped, before, after, split, earlier⟩ := List.find?_eq_some_iff_append.mp found
  refine ⟨before, first, after, split, of_decide_eq_true isBumped, ?_⟩
  intro other inFront
  simpa using earlier other inFront

/-- Before a field that rules which lead forward reset, there is one that they bump. -/
private theorem exists_bumped_before (distinct : (scheme.fields.map Field.name).Nodup)
    (forward : ∀ rule ∈ rules, rule.LeadsForward scheme) {before after : List Field}
    {field : Field} (split : scheme.fields = before ++ field :: after)
    (reset : field.name ∈ rules.flatMap Rule.resetNames) :
    ∃ earlier ∈ before, earlier.name ∈ rules.filterMap Rule.bump := by
  obtain ⟨rule, member, named⟩ := List.mem_flatMap.mp reset
  obtain ⟨bumped, bump, precedes⟩ := forward rule member field.name named
  rw [Scheme.Precedes, split, List.map_append, List.map_cons] at precedes
  rw [split, List.map_append, List.map_cons] at distinct
  obtain ⟨earlier, inFront, same⟩ := List.mem_map.mp (mem_of_pair_sublist distinct precedes)
  refine ⟨earlier, inFront, ?_⟩
  rw [same]
  exact List.mem_filterMap.mpr ⟨rule, member, bump⟩

/-- Neither the first bumped field nor one before it is reset. -/
private theorem not_reset_of_first (distinct : (scheme.fields.map Field.name).Nodup)
    (forward : ∀ rule ∈ rules, rule.LeadsForward scheme) {before after : List Field}
    {first : Field} (split : scheme.fields = before ++ first :: after)
    (unbumped : ∀ field ∈ before, field.name ∉ rules.filterMap Rule.bump) :
    first.name ∉ rules.flatMap Rule.resetNames ∧
      ∀ field ∈ before, field.name ∉ rules.flatMap Rule.resetNames := by
  constructor
  · intro reset
    obtain ⟨earlier, inFront, bumped⟩ := exists_bumped_before distinct forward split reset
    exact unbumped earlier inFront bumped
  · intro field member reset
    obtain ⟨front, back, rfl⟩ := List.append_of_mem member
    rw [List.append_assoc, List.cons_append] at split
    obtain ⟨earlier, inFront, bumped⟩ := exists_bumped_before distinct forward split reset
    exact unbumped earlier (List.mem_append_left _ inFront) bumped

end Bumped

namespace Version

variable {scheme : Scheme} {rules : List Rule} {version : Version}

private theorem BecomesBy.value_lt {outcome : Outcome} (becomes : version.BecomesBy rules outcome)
    {name : String} (bumped : name ∈ rules.filterMap Rule.bump)
    (kept : name ∉ rules.flatMap Rule.resetNames) :
    version.value name < outcome.version.value name := by
  obtain ⟨value, stored, number⟩ := becomes.touched name (List.mem_append_right _ bumped)
  have raised : outcome.version.value name = value := by
    rw [Version.value, stored, Option.getD_some]
  obtain ⟨rule, member, bump⟩ := List.mem_filterMap.mp bumped
  have counted : 0 < rules.countP fun rule => rule.bump == some name :=
    List.countP_pos_iff.mpr ⟨rule, member, by simpa using bump⟩
  rw [ruledNumber, if_neg kept] at number
  rw [raised, UInt64.lt_iff_toNat_lt]
  omega

/-- Fields that are kept do not tell two versions apart, and a raised one does. -/
private theorem numbers_lt {later : Version} {before after : List Field} {first : Field}
    (split : scheme.fields = before ++ first :: after)
    (kept : ∀ field ∈ before, later.value field.name = version.value field.name)
    (raised : version.value first.name < later.value first.name) :
    version.numbers scheme < later.numbers scheme := by
  have front : (before.map fun field => later.value field.name) =
      before.map fun field => version.value field.name := List.map_congr_left kept
  rw [numbers, numbers, split, List.map_append, List.map_append, front, List.map_cons,
    List.map_cons]
  exact List.append_left_lt (List.cons_lt_cons_iff.mpr (.inl raised))

/-- Rules that all lead forward, at least one of which bumps a field, make the numbers of a
version larger in the order of the scheme. The first field that any of them bumps is raised,
and the fields before it keep their entries. -/
theorem applyRules_raises {definition : String} (parsed : Scheme.parse definition = .ok scheme)
    (forward : ∀ rule ∈ rules, rule.LeadsForward scheme)
    (bumps : ∃ rule ∈ rules, rule.bump ≠ none) {outcome : Outcome}
    (done : version.applyRules scheme rules = .ok outcome) :
    version.numbers scheme < outcome.version.numbers scheme ∧
    ∃ before first after, scheme.fields = before ++ first :: after ∧
      first.name ∈ rules.filterMap Rule.bump ∧
      (∀ field ∈ before, field.name ∉ rules.filterMap Rule.bump) ∧
      version.value first.name < outcome.version.value first.name ∧
      ∀ field ∈ before, outcome.version.get? field.name = version.get? field.name := by
  have distinct := (Scheme.wellFormed_of_parse parsed).1.distinct
  have becomes := becomesBy_of_applyRules done
  have known := (sets_of_applyRules done).1
  obtain ⟨rule, member, bumpsField⟩ := bumps
  obtain ⟨name, bump⟩ := Option.ne_none_iff_exists'.mp bumpsField
  have bumped : name ∈ rules.filterMap Rule.bump := List.mem_filterMap.mpr ⟨rule, member, bump⟩
  obtain ⟨before, first, after, split, firstBumped, unbumped⟩ :=
    exists_first_bumped bumped (known name (List.mem_append_right _ bumped))
  obtain ⟨firstKept, unreset⟩ := not_reset_of_first distinct forward split unbumped
  have raised := becomes.value_lt firstBumped firstKept
  have kept : ∀ field ∈ before,
      outcome.version.get? field.name = version.get? field.name := by
    intro field inFront
    apply becomes.untouched
    intro touched
    rcases List.mem_append.mp touched with reset | isBumped
    · exact unreset field inFront reset
    · exact unbumped field inFront isBumped
  have values : ∀ field ∈ before,
      outcome.version.value field.name = version.value field.name := by
    intro field inFront
    rw [Version.value, Version.value, kept field inFront]
  exact ⟨numbers_lt split values raised, before, first, after, split, firstBumped, unbumped,
    raised, kept⟩

/-- The field with the largest number is reset by one rule and bumped twice by the others. It
goes down, but the field before it goes up. -/
theorem applyRules_raises_late_reset :
    ∃ scheme : Scheme,
      Scheme.parse "major.minor[.build]" = .ok scheme ∧
      (∀ rule ∈ lateResetRules, rule.LeadsForward scheme) ∧
      (ofPairs [("build", 7), ("minor", 18446744073709551615), ("major", 41)]).applyRules
        scheme lateResetRules =
          .ok { version := ofPairs [("build", 0), ("minor", 2), ("major", 42)]
                front := some "v", back := some "" } ∧
      ([41, 18446744073709551615, 7] : List UInt64) < [42, 2, 0] := by
  have parsed : Scheme.parse "major.minor[.build]" =
      .ok ⟨"major", .field "." "minor" (.group (.field "." "build" .done) .done)⟩ := by rfl
  have forward : ∀ rule ∈ lateResetRules, rule.LeadsForward
      ⟨"major", .field "." "minor" (.group (.field "." "build" .done) .done)⟩ := by decide
  have bumps : ∃ rule ∈ lateResetRules, rule.bump ≠ none := by decide
  have done : (ofPairs [("build", 7), ("minor", 18446744073709551615), ("major", 41)]).applyRules
      ⟨"major", .field "." "minor" (.group (.field "." "build" .done) .done)⟩ lateResetRules =
        .ok { version := ofPairs [("build", 0), ("minor", 2), ("major", 42)]
              front := some "v", back := some "" } := by rfl
  exact ⟨_, parsed, forward, done, (applyRules_raises parsed forward bumps done).1⟩

end Version

end Versioning
