import Versioning.Proofs.Rule.Failure

/-!
What rules make of a version, in closed form.

A field that rules reset or bump ends up with one for each rule that bumps it, on top of
zero if some rule resets it and of the number it had if none does. Fields without an entry
get one in the order in which they are first set, and nothing else changes. Rules fail for
the first reset of a field that the scheme does not have, or else for the first bump of
such a field or of the largest number. So their order is seen only in the order of the
entries, in the decorations and in the fault.
-/

namespace Versioning

/-! ### Setting fields in turn -/

namespace Version

inductive Sets : Version → List String → Version → Prop
  | nothing (version : Version) : Sets version [] version
  | next {version later : Version} {name : String} {value : UInt64} {names : List String} :
      Sets (version.insert name value) names later → Sets version (name :: names) later

private theorem Sets.append {first second third : Version} {names others : List String}
    (before : Sets first names second) (after : Sets second others third) :
    Sets first (names ++ others) third := by
  induction before with
  | nothing => exact after
  | next _ ih => exact .next (ih after)

private theorem Sets.get?_of_not_mem {version later : Version} {names : List String}
    (sets : Sets version names later) {name : String} (untouched : name ∉ names) :
    later.get? name = version.get? name := by
  induction sets with
  | nothing => rfl
  | next _ ih =>
      rw [List.mem_cons, not_or] at untouched
      rw [ih untouched.2, get?_insert, if_neg untouched.1]

/-- Fields that have an entry keep their places, and the others follow in the order in
which they are first set. -/
theorem Sets.names_eq {version later : Version} {names : List String}
    (sets : Sets version names later) :
    later.names = version.names ++ (names.filter (· ∉ version.names)).eraseDups := by
  induction sets with
  | nothing => simp
  | @next version later name value names _ ih =>
      rw [ih, names_insert]
      by_cases known : name ∈ version.names
      · rw [if_pos known, List.filter_cons_of_neg (by simpa using known)]
      · have others : (names.filter (· ∉ version.names)).filter (fun other => ! other == name) =
            names.filter (· ∉ version.names ++ [name]) := by
          rw [List.filter_filter]
          refine List.filter_congr fun other _ => ?_
          rw [Bool.eq_iff_iff]
          simp [and_comm]
        rw [if_neg known, List.filter_cons_of_pos (by simpa using known), List.eraseDups_cons,
          others, List.append_assoc, List.singleton_append]

private theorem Sets.mem_names {version later : Version} {names : List String}
    (sets : Sets version names later) {name : String} (touched : name ∈ names) :
    name ∈ later.names := by
  rw [sets.names_eq, List.mem_append, List.mem_eraseDups, List.mem_filter]
  by_cases known : name ∈ version.names
  · exact .inl known
  · exact .inr ⟨touched, by simpa using known⟩

private theorem sets_foldlM {step : Version → String → Except Error Version}
    (inserts : ∀ version name later, step version name = .ok later →
      ∃ value, later = version.insert name value)
    {names : List String} {version later : Version}
    (done : names.foldlM step version = .ok later) : Sets version names later := by
  induction names generalizing version with
  | nil =>
      cases done
      exact .nothing _
  | cons name names ih =>
      rw [List.foldlM_cons] at done
      obtain ⟨middle, first, rest⟩ := bind_eq_ok.mp done
      obtain ⟨value, rfl⟩ := inserts version name middle first
      exact .next (ih rest)

end Version

/-! ### Known fields -/

namespace Scheme

theorem checkField_eq_ok_iff (scheme : Scheme) (name : String) :
    scheme.checkField name = .ok () ↔ name ∈ scheme.fields.map Field.name := by
  have known : (scheme.field? name).isSome = true ↔ name ∈ scheme.fields.map Field.name := by
    rw [field?, List.find?_isSome, List.mem_map]
    simp only [beq_iff_eq]
  rw [← known]
  unfold checkField
  split
  next has => simp [has]
  next lacks => simp [lacks]

theorem checkField_eq_error_iff (scheme : Scheme) (name : String) (error : Error) :
    scheme.checkField name = .error error ↔
      name ∉ scheme.fields.map Field.name ∧ error = .unknownField name scheme.spelling := by
  rw [← checkField_eq_ok_iff]
  rcases scheme.checkField_cases name with unknown | ⟨known, _⟩
  · rw [unknown]
    simp [eq_comm]
  · rw [known]
    simp

end Scheme

namespace Version

theorem resetField_eq_ok {scheme : Scheme} {version later : Version} {name : String}
    (done : version.resetField scheme name = .ok later) :
    scheme.checkField name = .ok () ∧ later = version.insert name 0 := by
  obtain ⟨_, known, same⟩ := bind_eq_ok.mp done
  exact ⟨known, pure_eq_ok.mp same⟩

theorem resetField_eq_error_iff {scheme : Scheme} {version : Version} {name : String}
    {error : Error} :
    version.resetField scheme name = .error error ↔
      name ∉ scheme.fields.map Field.name ∧ error = .unknownField name scheme.spelling := by
  rw [← scheme.checkField_eq_error_iff]
  constructor
  · intro failed
    rcases bind_eq_error.mp failed with unknown | ⟨_, _, impossible⟩
    · exact unknown
    · cases impossible
  · intro unknown
    exact bind_eq_error.mpr (.inl unknown)

theorem bumpField_eq_ok {scheme : Scheme} {version later : Version} {name : String}
    (done : version.bumpField scheme name = .ok later) :
    scheme.checkField name = .ok () ∧ later = version.insert name (version.value name + 1) := by
  obtain ⟨_, known, _⟩ := bind_eq_ok.mp done
  rw [bumpField_of_known known] at done
  split at done
  next => exact ⟨known, by cases done; rfl⟩
  next => cases done

theorem bumpField_eq_error_iff {scheme : Scheme} {version : Version} {name : String}
    {error : Error} :
    version.bumpField scheme name = .error error ↔
      (name ∉ scheme.fields.map Field.name ∧ error = .unknownField name scheme.spelling) ∨
      (name ∈ scheme.fields.map Field.name ∧
        (version.value name).toNat + 1 = UInt64.size ∧
        error = .fieldOverflow name "18446744073709551615+1") := by
  by_cases known : name ∈ scheme.fields.map Field.name
  · rw [bumpField_of_known ((scheme.checkField_eq_ok_iff name).mpr known)]
    have bounded := (version.value name).toNat_lt_size
    split
    next fits =>
      have notFull : (version.value name).toNat + 1 ≠ UInt64.size := Nat.ne_of_lt fits
      simp [known, notFull]
    next full =>
      have largest : (version.value name).toNat + 1 = UInt64.size := by omega
      have value : version.value name = 18446744073709551615 :=
        UInt64.toNat_inj.mp (Nat.succ.inj largest)
      have text : decimalDigits (version.value name) ++ "+1" = "18446744073709551615+1" := by
        rw [value]
        decide +kernel
      simp [known, largest, text, eq_comm]
  · have unknown := (scheme.checkField_eq_error_iff name _).mpr ⟨known, rfl⟩
    unfold bumpField
    rw [unknown]
    simp only [bind, Except.bind, known, not_false_eq_true, true_and, false_and, or_false]
    simp [eq_comm]

/-! ### Bumps in rule order -/

def bumpBy (scheme : Scheme) (version : Version) (rule : Rule) : Except Error Version :=
  match rule.bump with
  | some name => version.bumpField scheme name
  | none => .ok version

private theorem foldlM_bumpField_filterMap (scheme : Scheme) (rules : List Rule)
    (version : Version) :
    (rules.filterMap Rule.bump).foldlM (bumpField scheme) version =
      rules.foldlM (bumpBy scheme) version := by
  rw [List.foldlM_filterMap]
  refine congrArg (fun step => rules.foldlM step version)
    (funext fun middle => funext fun rule => ?_)
  unfold bumpBy
  cases rule.bump with
  | none => rfl
  | some name => rfl

private theorem value_of_foldlM_bumpBy {scheme : Scheme} {rules : List Rule}
    {version raised : Version}
    (done : rules.foldlM (bumpBy scheme) version = .ok raised) (name : String) :
    (raised.value name).toNat =
      (version.value name).toNat + rules.countP fun rule => rule.bump == some name := by
  rw [← foldlM_bumpField_filterMap] at done
  have known : ∀ name ∈ rules.filterMap Rule.bump, scheme.checkField name = .ok () := by
    intro name member
    obtain ⟨_, _, step⟩ := foldlM_eq_ok done name member
    exact (bumpField_eq_ok step).1
  rcases foldlM_bumpField_cases known version with
    ⟨other, same, values⟩ | ⟨_, _, _, failed, _⟩
  · rw [done] at same
    cases same
    rw [values, List.count_filterMap]
  · rw [done] at failed
    cases failed

private theorem bumpBy_eq_error_iff {scheme : Scheme} {version : Version} {rule : Rule}
    {error : Error} :
    version.bumpBy scheme rule = .error error ↔
      ∃ name, rule.bump = some name ∧ version.bumpField scheme name = .error error := by
  unfold bumpBy
  cases rule.bump with
  | none => simp
  | some name => simp

end Version

/-! ### The closed form -/

def touchedNames (rules : List Rule) : List String :=
  rules.flatMap Rule.resetNames ++ rules.filterMap Rule.bump

/-- The number of a field after all the resets of `rules` and the bumps of `earlier`. -/
def numberAfter (rules earlier : List Rule) (name : String) (number : Nat) : Nat :=
  (if name ∈ rules.flatMap Rule.resetNames then 0 else number) +
    earlier.countP fun rule => rule.bump == some name

inductive LastGiven (texts : List (Option String)) : Option String → Prop
  | none : (∀ text ∈ texts, text = none) → LastGiven texts none
  | last {earlier later : List (Option String)} {text : String} :
      texts = earlier ++ some text :: later → (∀ other ∈ later, other = none) →
      LastGiven texts (some text)

/-- What rules that succeed make of a version. -/
structure Version.BecomesBy (version : Version) (rules : List Rule) (outcome : Outcome) :
    Prop where
  touched : ∀ name ∈ touchedNames rules, ∃ value, outcome.version.get? name = some value ∧
    value.toNat = ruledNumber rules name (version.value name).toNat
  untouched : ∀ name, name ∉ touchedNames rules →
    outcome.version.get? name = version.get? name
  order : outcome.version.names =
    version.names ++ ((touchedNames rules).filter (· ∉ version.names)).eraseDups
  front : LastGiven (rules.map Rule.front) outcome.front
  back : LastGiven (rules.map Rule.back) outcome.back

section Faults

variable (scheme : Scheme) (version : Version) (rules : List Rule)

/-- Once all resets of `rules` and the bumps of `earlier` are made, the bump of `rule`
names a field that the scheme does not have, or one with the largest number. -/
inductive Version.BumpFault (earlier : List Rule) (rule : Rule) : Error → Prop
  | unknown {name : String} :
      rule.bump = some name → name ∉ scheme.fields.map Field.name →
      BumpFault earlier rule (.unknownField name scheme.spelling)
  | overflow {name : String} :
      rule.bump = some name → name ∈ scheme.fields.map Field.name →
      numberAfter rules earlier name (version.value name).toNat + 1 = UInt64.size →
      BumpFault earlier rule (.fieldOverflow name "18446744073709551615+1")

/-- The fault of rules that fail: that of the first reset of a field that the scheme does
not have, or that of the first bump with one if there is no such reset. -/
inductive Version.RulesFault : Error → Prop
  | reset {before after : List String} {name : String} :
      rules.flatMap Rule.resetNames = before ++ name :: after →
      (∀ other ∈ before, other ∈ scheme.fields.map Field.name) →
      name ∉ scheme.fields.map Field.name →
      RulesFault (.unknownField name scheme.spelling)
  | bump {earlier later : List Rule} {rule : Rule} {error : Error} :
      (∀ name ∈ rules.flatMap Rule.resetNames, name ∈ scheme.fields.map Field.name) →
      rules = earlier ++ rule :: later →
      (∀ front other back otherError, earlier = front ++ other :: back →
        ¬ version.BumpFault scheme rules front other otherError) →
      version.BumpFault scheme rules earlier rule error →
      RulesFault error

end Faults

private theorem mem_bumps_of_ruledNumber {rules : List Rule} {name : String} {number : Nat}
    (fits : number < UInt64.size) (large : UInt64.size ≤ ruledNumber rules name number) :
    name ∈ rules.filterMap Rule.bump := by
  have counted : 0 < rules.countP fun rule => rule.bump == some name := by
    unfold ruledNumber at large
    split at large
    next => omega
    next => omega
  obtain ⟨rule, member, bumps⟩ := List.countP_pos_iff.mp counted
  exact List.mem_filterMap.mpr ⟨rule, member, by simpa using bumps⟩

private theorem lastGiven_getLast? (rules : List Rule) (part : Rule → Option String) :
    LastGiven (rules.map part) (rules.filterMap part).getLast? := by
  rw [List.getLast?_filterMap]
  cases found : rules.reverse.findSome? part with
  | none =>
      refine .none fun text member => ?_
      obtain ⟨rule, known, rfl⟩ := List.mem_map.mp member
      exact List.findSome?_eq_none_iff.mp found rule (List.mem_reverse.mpr known)
  | some text =>
      obtain ⟨later, rule, earlier, split, gives, silent⟩ := List.findSome?_eq_some_iff.mp found
      have parts : rules = earlier.reverse ++ rule :: later.reverse := by
        rw [← rules.reverse_reverse, split]
        simp
      have given : rules.map part =
          earlier.reverse.map part ++ some text :: later.reverse.map part := by
        rw [parts, List.map_append, List.map_cons, gives]
      refine .last given fun other member => ?_
      obtain ⟨silentRule, known, rfl⟩ := List.mem_map.mp member
      exact silent silentRule (List.mem_reverse.mp known)

namespace Version

variable {scheme : Scheme} {version : Version} {rules : List Rule}

private theorem checkRules_of_forall
    (known : ∀ name ∈ touchedNames rules, name ∈ scheme.fields.map Field.name) :
    scheme.checkRules rules = .ok () := by
  refine forM_of_forall fun name member => (scheme.checkField_eq_ok_iff name).mpr (known name ?_)
  obtain ⟨rule, isRule, named⟩ := List.mem_flatMap.mp member
  rcases List.mem_append.mp named with reset | bump
  · exact List.mem_append_left _ (List.mem_flatMap.mpr ⟨rule, isRule, reset⟩)
  · exact List.mem_append_right _
      (List.mem_filterMap.mpr ⟨rule, isRule, Option.mem_toList.mp bump⟩)

/-- Rules that succeed know all their fields and set them in turn. -/
theorem sets_of_applyRules {outcome : Outcome}
    (done : version.applyRules scheme rules = .ok outcome) :
    (∀ name ∈ touchedNames rules, name ∈ scheme.fields.map Field.name) ∧
      Sets version (touchedNames rules) outcome.version ∧
      outcome.front = (rules.filterMap Rule.front).getLast? ∧
      outcome.back = (rules.filterMap Rule.back).getLast? := by
  obtain ⟨cleared, resets, rest⟩ := bind_eq_ok.mp done
  obtain ⟨raised, bumps, result⟩ := bind_eq_ok.mp rest
  cases result
  refine ⟨?_, ?_, rfl, rfl⟩
  · intro name member
    rw [← scheme.checkField_eq_ok_iff]
    rcases List.mem_append.mp member with reset | bump
    · obtain ⟨_, _, step⟩ := foldlM_eq_ok resets name reset
      exact (resetField_eq_ok step).1
    · obtain ⟨_, _, step⟩ := foldlM_eq_ok bumps name bump
      exact (bumpField_eq_ok step).1
  · refine Sets.append (sets_foldlM ?_ resets) (sets_foldlM ?_ bumps)
    · intro _ _ _ step
      exact ⟨_, (resetField_eq_ok step).2⟩
    · intro _ _ _ step
      exact ⟨_, (bumpField_eq_ok step).2⟩

theorem becomesBy_of_applyRules {outcome : Outcome}
    (done : version.applyRules scheme rules = .ok outcome) :
    version.BecomesBy rules outcome := by
  obtain ⟨known, sets, front, back⟩ := sets_of_applyRules done
  rcases applyRules_cases (checkRules_of_forall known) (fun _ member => member) version with
    ⟨other, same, values⟩ | ⟨_, _, failed, _⟩
  · rw [done] at same
    cases same
    refine ⟨fun name member => ?_, fun name absent => sets.get?_of_not_mem absent,
      sets.names_eq, ?_, ?_⟩
    · obtain ⟨value, stored⟩ :=
        Option.isSome_iff_exists.mp ((mem_names_iff _ _).mp (sets.mem_names member))
      refine ⟨value, stored, ?_⟩
      rw [← values, Version.value, stored, Option.getD_some]
    · rw [front]
      exact lastGiven_getLast? rules Rule.front
    · rw [back]
      exact lastGiven_getLast? rules Rule.back
  · rw [done] at failed
    cases failed

theorem exists_applyRules_iff (scheme : Scheme) (version : Version) (rules : List Rule) :
    (∃ outcome, version.applyRules scheme rules = .ok outcome) ↔
      (∀ name ∈ touchedNames rules, name ∈ scheme.fields.map Field.name) ∧
      ∀ name ∈ rules.filterMap Rule.bump,
        ruledNumber rules name (version.value name).toNat < UInt64.size := by
  constructor
  · rintro ⟨outcome, done⟩
    refine ⟨(sets_of_applyRules done).1, fun name member => ?_⟩
    obtain ⟨value, _, number⟩ :=
      (becomesBy_of_applyRules done).touched name (List.mem_append_right _ member)
    rw [← number]
    exact value.toNat_lt_size
  · rintro ⟨known, fit⟩
    rcases applyRules_cases (checkRules_of_forall known) (fun _ member => member) version with
      ⟨outcome, done, _⟩ | ⟨name, _, _, _, large⟩
    · exact ⟨outcome, done⟩
    · have bumped := mem_bumps_of_ruledNumber (version.value name).toNat_lt_size large
      exact absurd large (Nat.not_le.mpr (fit name bumped))

/-! ### Faults -/

private theorem foldlM_resetField_eq_ok_iff {names : List String} :
    (∃ cleared, names.foldlM (resetField scheme) version = .ok cleared) ↔
      ∀ name ∈ names, name ∈ scheme.fields.map Field.name := by
  constructor
  · rintro ⟨cleared, done⟩ name member
    obtain ⟨_, _, step⟩ := foldlM_eq_ok done name member
    exact (scheme.checkField_eq_ok_iff name).mp (resetField_eq_ok step).1
  · intro known
    obtain ⟨cleared, done, _⟩ := foldlM_resetField
      (fun name member => (scheme.checkField_eq_ok_iff name).mpr (known name member)) version
    exact ⟨cleared, done⟩

private theorem foldlM_resetField_eq_error_iff {names : List String} {error : Error} :
    names.foldlM (resetField scheme) version = .error error ↔
      ∃ before name after, names = before ++ name :: after ∧
        (∀ other ∈ before, other ∈ scheme.fields.map Field.name) ∧
        name ∉ scheme.fields.map Field.name ∧ error = .unknownField name scheme.spelling := by
  rw [foldlM_eq_error_iff]
  constructor
  · rintro ⟨before, name, after, middle, split, done, failed⟩
    exact ⟨before, name, after, split, foldlM_resetField_eq_ok_iff.mp ⟨middle, done⟩,
      resetField_eq_error_iff.mp failed⟩
  · rintro ⟨before, name, after, split, known, unknown⟩
    obtain ⟨middle, done⟩ := foldlM_resetField_eq_ok_iff.mpr known
    exact ⟨before, name, after, middle, split, done, resetField_eq_error_iff.mpr unknown⟩

/-- After the bumps of `earlier`, the bump of a rule fails as its fault says. -/
private theorem bumpBy_eq_error_iff_bumpFault {earlier : List Rule} {cleared middle : Version}
    (resets : (rules.flatMap Rule.resetNames).foldlM (resetField scheme) version = .ok cleared)
    (bumps : earlier.foldlM (bumpBy scheme) cleared = .ok middle) (rule : Rule) (error : Error) :
    middle.bumpBy scheme rule = .error error ↔
      version.BumpFault scheme rules earlier rule error := by
  have number (name : String) : (middle.value name).toNat =
      numberAfter rules earlier name (version.value name).toNat := by
    obtain ⟨other, same, values⟩ := foldlM_resetField
      (fun name member => (scheme.checkField_eq_ok_iff name).mpr
        (foldlM_resetField_eq_ok_iff.mp ⟨cleared, resets⟩ name member)) version
    rw [resets] at same
    cases same
    rw [value_of_foldlM_bumpBy bumps, values, numberAfter]
    split
    · rfl
    · rfl
  rw [bumpBy_eq_error_iff]
  constructor
  · rintro ⟨name, bump, failed⟩
    rcases bumpField_eq_error_iff.mp failed with ⟨unknown, rfl⟩ | ⟨known, largest, rfl⟩
    · exact .unknown bump unknown
    · rw [number] at largest
      exact .overflow bump known largest
  · intro fault
    cases fault with
    | @unknown name bump unknown =>
        exact ⟨name, bump, bumpField_eq_error_iff.mpr (.inl ⟨unknown, rfl⟩)⟩
    | @overflow name bump known largest =>
        rw [← number] at largest
        exact ⟨name, bump, bumpField_eq_error_iff.mpr (.inr ⟨known, largest, rfl⟩)⟩

theorem rulesFault_of_applyRules {error : Error}
    (failed : version.applyRules scheme rules = .error error) :
    version.RulesFault scheme rules error := by
  rcases bind_eq_error.mp failed with unreset | ⟨cleared, resets, rest⟩
  · obtain ⟨before, name, after, split, known, unknown, rfl⟩ :=
      foldlM_resetField_eq_error_iff.mp unreset
    exact .reset split known unknown
  · have known := foldlM_resetField_eq_ok_iff.mp ⟨cleared, resets⟩
    rcases bind_eq_error.mp rest with unbumped | ⟨_, _, impossible⟩
    · rw [foldlM_bumpField_filterMap, foldlM_eq_error_iff] at unbumped
      obtain ⟨earlier, rule, later, middle, split, done, fails⟩ := unbumped
      refine .bump known split ?_ ((bumpBy_eq_error_iff_bumpFault resets done rule error).mp fails)
      -- The bumps in front were made, so none of them has a fault.
      intro front other back otherError parts fault
      rw [parts, List.foldlM_append] at done
      obtain ⟨reached, first, others⟩ := bind_eq_ok.mp done
      rw [List.foldlM_cons] at others
      obtain ⟨_, made, _⟩ := bind_eq_ok.mp others
      have stops := (bumpBy_eq_error_iff_bumpFault resets first other otherError).mpr fault
      rw [made] at stops
      cases stops
    · cases impossible

theorem applyRules_of_rulesFault {error : Error}
    (fault : version.RulesFault scheme rules error) :
    version.applyRules scheme rules = .error error := by
  cases fault with
  | reset split known unknown =>
      exact bind_eq_error.mpr (.inl (foldlM_resetField_eq_error_iff.mpr
        ⟨_, _, _, split, known, unknown, rfl⟩))
  | @bump earlier later rule error known split first fault =>
      obtain ⟨cleared, resets⟩ := foldlM_resetField_eq_ok_iff.mpr known
      refine bind_eq_error.mpr (.inr ⟨cleared, resets, bind_eq_error.mpr (.inl ?_)⟩)
      rw [foldlM_bumpField_filterMap, foldlM_eq_error_iff]
      cases bumps : earlier.foldlM (bumpBy scheme) cleared with
      | ok middle =>
          exact ⟨earlier, rule, later, middle, split, bumps,
            (bumpBy_eq_error_iff_bumpFault resets bumps rule error).mpr fault⟩
      | error other =>
          obtain ⟨front, stopped, back, reached, parts, done, fails⟩ :=
            foldlM_eq_error_iff.mp bumps
          exact absurd ((bumpBy_eq_error_iff_bumpFault resets done stopped other).mp fails)
            (first front stopped back other parts)

/-! ### The order of rules -/

private theorem mem_touchedNames_perm {others : List Rule} (same : rules.Perm others)
    (name : String) :
    name ∈ touchedNames rules ↔ name ∈ touchedNames others :=
  ((same.flatMap_right Rule.resetNames).append (same.filterMap Rule.bump)).mem_iff

private theorem ruledNumber_perm {others : List Rule} (same : rules.Perm others) (name : String)
    (number : Nat) : ruledNumber rules name number = ruledNumber others name number := by
  unfold ruledNumber
  rw [same.countP_eq]
  simp only [(same.flatMap_right Rule.resetNames).mem_iff]

theorem BecomesBy.beq_of_perm {others : List Rule} (same : rules.Perm others)
    {outcome other : Outcome} (first : version.BecomesBy rules outcome)
    (second : version.BecomesBy others other) : (outcome.version == other.version) = true := by
  refine beq_of_get?_eq fun name => ?_
  by_cases touched : name ∈ touchedNames rules
  · obtain ⟨value, stored, number⟩ := first.touched name touched
    obtain ⟨otherValue, otherStored, otherNumber⟩ :=
      second.touched name ((mem_touchedNames_perm same name).mp touched)
    rw [ruledNumber_perm same, ← otherNumber] at number
    rw [stored, otherStored, UInt64.toNat_inj.mp number]
  · rw [first.untouched name touched,
      second.untouched name fun member => touched ((mem_touchedNames_perm same name).mpr member)]

private theorem exists_applyRules_perm {others : List Rule} (same : rules.Perm others) :
    (∃ outcome, version.applyRules scheme rules = .ok outcome) ↔
      ∃ outcome, version.applyRules scheme others = .ok outcome := by
  rw [exists_applyRules_iff, exists_applyRules_iff]
  simp only [mem_touchedNames_perm same, ruledNumber_perm same,
    (same.filterMap Rule.bump).mem_iff]

/-- Rules succeed exactly if the scheme has all fields that they reset or bump and every
bumped field ends up with a number that fits. What they make of the version then has the
closed form. Otherwise they fail with the fault of the first unknown reset, or else of the
first bump that cannot be made. In another order the rules succeed as well and make an
equal version. -/
theorem applyRules_exact (scheme : Scheme) (version : Version) (rules : List Rule) :
    ((∃ outcome, version.applyRules scheme rules = .ok outcome) ↔
      (∀ name ∈ touchedNames rules, name ∈ scheme.fields.map Field.name) ∧
      ∀ name ∈ rules.filterMap Rule.bump,
        ruledNumber rules name (version.value name).toNat < UInt64.size) ∧
    (∀ outcome, version.applyRules scheme rules = .ok outcome →
      version.BecomesBy rules outcome) ∧
    (∀ error, version.applyRules scheme rules = .error error ↔
      version.RulesFault scheme rules error) ∧
    ∀ others, rules.Perm others →
      ((∃ outcome, version.applyRules scheme rules = .ok outcome) ↔
        ∃ outcome, version.applyRules scheme others = .ok outcome) ∧
      ∀ outcome other, version.applyRules scheme rules = .ok outcome →
        version.applyRules scheme others = .ok other →
        (outcome.version == other.version) = true := by
  refine ⟨exists_applyRules_iff scheme version rules, fun _ => becomesBy_of_applyRules,
    fun error => ⟨rulesFault_of_applyRules, applyRules_of_rulesFault⟩, ?_⟩
  intro others same
  refine ⟨exists_applyRules_perm same, fun outcome other done otherDone => ?_⟩
  exact (becomesBy_of_applyRules done).beq_of_perm same (becomesBy_of_applyRules otherDone)

def lateResetRules : List Rule :=
  [ { trigger := .commit, branch := none, bump := some "minor", reset := none,
      front := some "v", back := some "-a" },
    { trigger := .commit, branch := none, bump := some "minor", reset := some (.one "build"),
      front := none, back := some "" },
    { trigger := .commit, branch := none, bump := some "major",
      reset := some (.many ["minor", "build"]), front := none, back := none } ]

/-- The largest number is no hindrance where it is reset, in whatever order. -/
theorem applyRules_exact_late_reset :
    let scheme : Scheme := ⟨"major", .field "." "minor" (.group (.field "." "build" .done) .done)⟩
    let version : Version :=
      { entries := [("extra", 9), ("minor", 18446744073709551615)], distinct := by decide }
    ∃ outcome other, version.applyRules scheme lateResetRules = .ok outcome ∧
      version.applyRules scheme lateResetRules.reverse = .ok other ∧
      outcome.version.entries = [("extra", 9), ("minor", 2), ("build", 0), ("major", 1)] ∧
      other.version.entries = [("extra", 9), ("minor", 2), ("build", 0), ("major", 1)] ∧
      version.BecomesBy lateResetRules outcome ∧ (outcome.version == other.version) = true := by
  intro scheme version
  have exact := applyRules_exact scheme version lateResetRules
  exact ⟨_, _, rfl, rfl, rfl, rfl, exact.2.1 _ rfl,
    (exact.2.2.2 _ lateResetRules.reverse_perm.symm).2 _ _ rfl rfl⟩

end Version

end Versioning
