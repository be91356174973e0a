import Versioning.Configuration
import Versioning.Proofs.Rule.Agreement

/-!
How rules fail.

Rules that were checked against a scheme name only fields that it has. All resets come
before all bumps, so a field ends up with one for each rule that bumps it, on top of
zero if some rule resets it and of the number it had if none does. The rules fail
exactly when one of these numbers does not fit.
-/

namespace Versioning

private theorem Scheme.checkField_of_checkRules {scheme : Scheme} {rules : List Rule}
    (fits : scheme.checkRules rules = .ok ()) {rule : Rule} (member : rule ∈ rules)
    {name : String} (named : name ∈ rule.fieldNames) : scheme.checkField name = .ok () :=
  forM_eq_ok fits name (List.mem_flatMap.mpr ⟨rule, member, named⟩)

def ruledNumber (applied : List Rule) (name : String) (number : Nat) : Nat :=
  (if name ∈ applied.flatMap Rule.resetNames then 0 else number) +
    applied.countP fun rule => rule.bump == some name

namespace Version

private theorem resetField_of_known {scheme : Scheme} {name : String}
    (known : scheme.checkField name = .ok ()) (version : Version) :
    version.resetField scheme name = .ok (version.insert name 0) := by
  unfold resetField
  rw [known]
  rfl

theorem bumpField_of_known {scheme : Scheme} {name : String}
    (known : scheme.checkField name = .ok ()) (version : Version) :
    version.bumpField scheme name =
      if (version.value name).toNat + 1 < UInt64.size then
        .ok (version.insert name (version.value name + 1))
      else
        .error (.fieldOverflow name (decimalDigits (version.value name) ++ "+1")) := by
  unfold bumpField
  rw [known]
  rfl

/-! ### Resets -/

theorem foldlM_resetField {scheme : Scheme} {names : List String}
    (known : ∀ name ∈ names, scheme.checkField name = .ok ()) (version : Version) :
    ∃ cleared, names.foldlM (resetField scheme) version = .ok cleared ∧
      ∀ name, cleared.value name = if name ∈ names then 0 else version.value name := by
  induction names generalizing version with
  | nil => exact ⟨version, rfl, fun name => by simp⟩
  | cons first names ih =>
      have knownParts := List.forall_mem_cons.mp known
      obtain ⟨cleared, done, values⟩ := ih knownParts.2 (version.insert first 0)
      refine ⟨cleared, ?_, ?_⟩
      · rw [List.foldlM_cons, resetField_of_known knownParts.1]
        exact done
      · intro name
        rw [values, value_insert]
        by_cases later : name ∈ names
        · rw [if_pos later, if_pos (List.mem_cons_of_mem first later)]
        · rw [if_neg later]
          by_cases here : name = first
          · rw [if_pos here, if_pos (List.mem_cons.mpr (.inl here))]
          · rw [if_neg here, if_neg]
            intro member
            rcases List.mem_cons.mp member with same | inTail
            · exact here same
            · exact later inTail

/-! ### Bumps -/

private theorem toNat_value_insert_succ {version : Version} {first : String}
    (fits : (version.value first).toNat + 1 < UInt64.size) (name : String) :
    ((version.insert first (version.value first + 1)).value name).toNat =
      (version.value name).toNat + if name = first then 1 else 0 := by
  rw [value_insert]
  by_cases same : name = first
  · subst same
    rw [if_pos rfl, if_pos rfl, UInt64.toNat_add]
    exact Nat.mod_eq_of_lt fits
  · rw [if_neg same, if_neg same, Nat.add_zero]

private theorem count_cons_eq (first name : String) (names : List String) :
    (first :: names).count name = (if name = first then 1 else 0) + names.count name := by
  rw [List.count_cons, Nat.add_comm]
  by_cases same : name = first
  · simp [same]
  · have different : ¬ first = name := fun equal => same equal.symm
    simp [same, different]

theorem foldlM_bumpField_cases {scheme : Scheme} {names : List String}
    (known : ∀ name ∈ names, scheme.checkField name = .ok ()) (version : Version) :
    (∃ raised, names.foldlM (bumpField scheme) version = .ok raised ∧
      ∀ name, (raised.value name).toNat = (version.value name).toNat + names.count name) ∨
    ∃ name ∈ names, ∃ digits,
      names.foldlM (bumpField scheme) version = .error (.fieldOverflow name digits) ∧
        UInt64.size ≤ (version.value name).toNat + names.count name := by
  induction names generalizing version with
  | nil => exact .inl ⟨version, rfl, fun name => by simp⟩
  | cons first names ih =>
      have knownParts := List.forall_mem_cons.mp known
      rw [List.foldlM_cons, bumpField_of_known knownParts.1]
      by_cases fits : (version.value first).toNat + 1 < UInt64.size
      · rw [if_pos fits]
        have raises := toNat_value_insert_succ fits
        rcases ih knownParts.2 (version.insert first (version.value first + 1)) with
          ⟨raised, done, values⟩ | ⟨name, member, digits, failed, large⟩
        · left
          refine ⟨raised, done, ?_⟩
          intro name
          rw [values, raises, count_cons_eq, Nat.add_assoc]
        · right
          refine ⟨name, List.mem_cons_of_mem first member, digits, failed, ?_⟩
          rwa [count_cons_eq, ← Nat.add_assoc, ← raises]
      · rw [if_neg fits]
        right
        refine ⟨first, List.mem_cons_self .., _, rfl, ?_⟩
        rw [count_cons_eq, if_pos rfl]
        omega

/-! ### Rules -/

/-- Either every number fits and the rules lead to it, or the rules fail because of one
that does not fit. -/
theorem applyRules_cases {scheme : Scheme} {rules applied : List Rule}
    (fits : scheme.checkRules rules = .ok ()) (known : ∀ rule ∈ applied, rule ∈ rules)
    (version : Version) :
    (∃ outcome, version.applyRules scheme applied = .ok outcome ∧
      ∀ name, (outcome.version.value name).toNat =
        ruledNumber applied name (version.value name).toNat) ∨
    ∃ name digits,
      version.applyRules scheme applied = .error (.fieldOverflow name digits) ∧
        scheme.checkField name = .ok () ∧
        UInt64.size ≤ ruledNumber applied name (version.value name).toNat := by
  have resets : ∀ name ∈ applied.flatMap Rule.resetNames, scheme.checkField name = .ok () := by
    intro name member
    obtain ⟨rule, isApplied, named⟩ := List.mem_flatMap.mp member
    exact Scheme.checkField_of_checkRules fits (known rule isApplied)
      (List.mem_append_left _ named)
  have bumps : ∀ name ∈ applied.filterMap Rule.bump, scheme.checkField name = .ok () := by
    intro name member
    obtain ⟨rule, isApplied, raises⟩ := List.mem_filterMap.mp member
    exact Scheme.checkField_of_checkRules fits (known rule isApplied)
      (List.mem_append_right _ (Option.mem_toList.mpr raises))
  obtain ⟨cleared, done, values⟩ := foldlM_resetField resets version
  have number (name : String) :
      (cleared.value name).toNat + (applied.filterMap Rule.bump).count name =
        ruledNumber applied name (version.value name).toNat := by
    rw [values, List.count_filterMap, ruledNumber]
    split
    · rfl
    · rfl
  unfold applyRules
  rw [done]
  change (∃ outcome, ((applied.filterMap Rule.bump).foldlM (bumpField scheme) cleared >>= _) =
    _ ∧ _) ∨ ∃ name digits,
      ((applied.filterMap Rule.bump).foldlM (bumpField scheme) cleared >>= _) = _ ∧ _
  rcases foldlM_bumpField_cases bumps cleared with
    ⟨raised, raises, later⟩ | ⟨name, member, digits, failed, large⟩
  · rw [raises]
    left
    refine ⟨_, rfl, ?_⟩
    intro name
    rw [later, number]
  · rw [failed]
    right
    rw [number] at large
    exact ⟨name, digits, rfl, bumps name member, large⟩

/-- Checked rules fail only because a field cannot be raised. -/
theorem applyRules_eq_error {scheme : Scheme} {rules applied : List Rule}
    (fits : scheme.checkRules rules = .ok ()) (known : ∀ rule ∈ applied, rule ∈ rules)
    {version : Version} {error : Error}
    (failed : version.applyRules scheme applied = .error error) :
    ∃ name digits, error = .fieldOverflow name digits := by
  rcases applyRules_cases fits known version with
    ⟨outcome, done, _⟩ | ⟨name, digits, overflow, _⟩
  · rw [failed] at done
    cases done
  · rw [failed] at overflow
    cases overflow
    exact ⟨name, digits, rfl⟩

end Version

end Versioning
