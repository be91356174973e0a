import Versioning.Proofs.Version.Canonical

/-!
Versions are found with whole numbers.

A digit before a version could be added to its first number, so that another version
would start earlier, and a digit behind it to its last one, which is as long as it can
be. So a search never cuts through a number. The numbers in a text are those before the
version, those it was read from, and those behind it.
-/

namespace Versioning

/-! ### Where a text can be cut -/

def NoDigitAtEnd (text : List Char) : Prop :=
  ∀ c, text.getLast? = some c → c.isDigit = false

private theorem numerals_append_of_end {text : List Char} (ended : NoDigitAtEnd text)
    (later : List Char) : numerals (text ++ later) = numerals text ++ numerals later := by
  cases last : text.getLast? with
  | none =>
      rw [List.getLast?_eq_none_iff.mp last]
      rfl
  | some c =>
      obtain ⟨front, rfl⟩ := List.getLast?_eq_some_iff.mp last
      have other := ended c last
      have empty : numerals [] = [] := rfl
      rw [List.append_assoc, List.singleton_append, numerals_append_cons front later other,
        numerals_append_cons front [] other, empty, List.append_nil]

/-! ### Around a version -/

namespace Scheme

variable {scheme : Scheme} {text : String} {found : Occurrence} {choice : List Bool}
  {captures : List (Option (List Char))}

/-- A digit in front of a version belongs to its first number. -/
private theorem exists_derives_cons {core : List Char}
    (derivation : scheme.whole.Derives choice captures core) {c : Char}
    (digit : c.isDigit = true) :
    ∃ longer, scheme.whole.Derives choice longer (c :: core) := by
  cases derivation with
  | field isRun derivation => exact ⟨_, .field (IsRun.cons digit isRun.2) derivation⟩

theorem FindsFirst.noDigitAtEnd (formed : scheme.WellFormed)
    (finds : scheme.FindsFirst text found choice captures) :
    NoDigitAtEnd found.before.toList := by
  intro c last
  obtain ⟨front, split⟩ := List.getLast?_eq_some_iff.mp last
  -- Otherwise a version that starts with `c` could be read there.
  have unread := finds.unread_before formed split (List.cons_ne_nil c [])
  have underivable := (formed.readThen_eq_none_iff _).mp unread (c :: found.core.toList)
    found.after.toList rfl
  cases digit : c.isDigit with
  | false => rfl
  | true =>
      obtain ⟨longer, derivation⟩ := exists_derives_cons finds.greedy.derives digit
      exact absurd ⟨choice, longer, derivation⟩ underivable

theorem FindsFirst.startsWithDigit_after (formed : scheme.WellFormed)
    (finds : scheme.FindsFirst text found choice captures) :
    startsWithDigit found.after.toList = false :=
  (formed.fullRuns_iff finds.greedy.derives).mp finds.greedy.full

theorem FindsFirst.numerals_eq (formed : scheme.WellFormed)
    (finds : scheme.FindsFirst text found choice captures) :
    numerals text.toList =
      numerals found.before.toList ++ (captures.filterMap id ++ numerals found.after.toList) := by
  rw [← finds.here, found.toList_text, numerals_append_of_end (finds.noDigitAtEnd formed),
    numerals_append_of_start _ (finds.startsWithDigit_after formed),
    formed.numerals_of_derives finds.greedy.derives]

/-- What is found is a part of the text, and no digit stands just before it or just behind
it. It was read in a way that makes each number of the text, from its first digit to its
last, one of those before the version, one of those that its fields were read from, or one
of those behind it. -/
theorem find?_whole_numbers {definition : String} (compiled : compile definition = .ok scheme)
    (searched : scheme.find? text = some found) :
    found.before ++ found.core ++ found.after = text ∧
    (∀ c, found.before.toList.getLast? = some c → c.isDigit = false) ∧
    (∀ c, found.after.toList.head? = some c → c.isDigit = false) ∧
    ∃ choice captures, scheme.FindsFirst text found choice captures ∧
      numerals found.core.toList = captures.filterMap id ∧
      numerals text.toList =
        numerals found.before.toList ++
          (captures.filterMap id ++ numerals found.after.toList) := by
  have formed := wellFormed_of_compile compiled
  obtain ⟨choice, captures, finds⟩ := (formed.find?_eq_some_iff text found).mp searched
  refine ⟨finds.here, finds.noDigitAtEnd formed, ?_, choice, captures, finds,
    formed.numerals_of_derives finds.greedy.derives, finds.numerals_eq formed⟩
  intro c first
  have ended := finds.startsWithDigit_after formed
  simpa [startsWithDigit, first] using ended

/-- The group is tried up to its second separator, which is missing, and then left out. The
number it started to read stays whole behind the version. -/
theorem find?_whole_numbers_abandoned :
    ∃ (scheme : Scheme) (found : Occurrence),
      Scheme.compile "a[.b-c]" = .ok scheme ∧
      scheme.find? "é٣007.25x8" = some found ∧
      found.before = "é٣" ∧ found.core = "007" ∧ found.after = ".25x8" ∧
      (∀ c, found.before.toList.getLast? = some c → c.isDigit = false) ∧
      (∀ c, found.after.toList.head? = some c → c.isDigit = false) := by
  have compiled : Scheme.compile "a[.b-c]" =
      .ok ⟨"a", .group (.field "." "b" (.field "-" "c" .done)) .done⟩ := by rfl
  have searched : Scheme.find? ⟨"a", .group (.field "." "b" (.field "-" "c" .done)) .done⟩
      "é٣007.25x8" = some { before := "é٣", core := "007", after := ".25x8" } := by rfl
  obtain ⟨_, front, back, _⟩ := find?_whole_numbers compiled searched
  exact ⟨_, _, compiled, searched, rfl, rfl, rfl, front, back⟩

end Scheme

end Versioning
