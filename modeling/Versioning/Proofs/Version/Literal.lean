import Versioning.Proofs.Scheme.Derivation
import Versioning.Proofs.Scheme.Tokens
import Versioning.Proofs.Success
import Versioning.Proofs.Version.Entries
import Versioning.Version.Literal

/-!
What the numbers of a literal are.

Main statement: a literal is refused exactly when no choice of groups derives it,
and otherwise its numbers are those of the preferred derivation, unless one of
them does not fit.
-/

namespace Versioning

/-! ### The numbers of captures -/

def captureNumber : Option (List Char) → Nat
  | none => 0
  | some digits => decimalValue digits

def captureValue (capture : Option (List Char)) : UInt64 :=
  UInt64.ofNat (captureNumber capture)

theorem captureNumber_none_lt : captureNumber none < UInt64.size := by decide

def readEntry (entry : String × Option (List Char)) : Except Error (String × UInt64) := do
  let value ← readField entry.1 entry.2
  return (entry.1, value)

private theorem readEntry_of_lt (name : String) (capture : Option (List Char))
    (fits : captureNumber capture < UInt64.size) :
    readEntry (name, capture) = .ok (name, captureValue capture) := by
  cases capture with
  | none => rfl
  | some digits =>
      have fits : decimalValue digits < UInt64.size := fits
      have read : readField name (some digits) = .ok (captureValue (some digits)) := by
        rw [readField, if_pos fits]
        rfl
      rw [readEntry, read]
      rfl

private theorem readEntry_of_le (name : String) (digits : List Char)
    (large : UInt64.size ≤ decimalValue digits) :
    readEntry (name, some digits) =
      .error (.fieldOverflow name (String.ofList digits)) := by
  have large : ¬ decimalValue digits < UInt64.size := Nat.not_lt.mpr large
  have read : readField name (some digits) =
      .error (.fieldOverflow name (String.ofList digits)) := by
    rw [readField, if_neg large]
  rw [readEntry, read]
  rfl

theorem mapM_readEntry_of_lt (names : List String)
    (captures : List (Option (List Char)))
    (fit : ∀ capture ∈ captures, captureNumber capture < UInt64.size) :
    (names.zip captures).mapM readEntry = .ok (names.zip (captures.map captureValue)) := by
  induction names generalizing captures with
  | nil => rfl
  | cons name names ih =>
      cases captures with
      | nil => rfl
      | cons capture captures =>
          have parts := List.forall_mem_cons.mp fit
          rw [List.zip_cons_cons, List.mapM_cons, readEntry_of_lt name capture parts.1]
          change (do
            let others ← (names.zip captures).mapM readEntry
            pure ((name, captureValue capture) :: others)) = _
          rw [ih captures parts.2]
          rfl

private theorem mapM_readEntry_of_le (names : List String) (captures : List (Option (List Char)))
    (index : Nat) (name : String) (digits : List Char)
    (named : names[index]? = some name) (captured : captures[index]? = some (some digits))
    (large : UInt64.size ≤ decimalValue digits)
    (first : ∀ earlier capture, earlier < index → captures[earlier]? = some capture →
      captureNumber capture < UInt64.size) :
    (names.zip captures).mapM readEntry =
      .error (.fieldOverflow name (String.ofList digits)) := by
  induction index generalizing names captures with
  | zero =>
      obtain ⟨others, rfl⟩ := List.head?_eq_some_iff.mp (List.head?_eq_getElem? ▸ named)
      obtain ⟨later, rfl⟩ := List.head?_eq_some_iff.mp (List.head?_eq_getElem? ▸ captured)
      rw [List.zip_cons_cons, List.mapM_cons, readEntry_of_le name digits large]
      rfl
  | succ index ih =>
      cases names with
      | nil => cases named
      | cons front names =>
          cases captures with
          | nil => cases captured
          | cons capture captures =>
              have fits := first 0 capture (Nat.succ_pos index) rfl
              have later := ih names captures named captured (by
                intro earlier capture before present
                exact first (earlier + 1) capture (Nat.succ_lt_succ before) present)
              rw [List.zip_cons_cons, List.mapM_cons, readEntry_of_lt front capture fits]
              change (do
                let others ← (names.zip captures).mapM readEntry
                pure ((front, captureValue capture) :: others)) = _
              rw [later]
              rfl

/-- A number that does not fit is all that can be wrong with captures. -/
private theorem fieldOverflow_of_mapM_readEntry (entries : List (String × Option (List Char)))
    (fault : Error) (failed : entries.mapM readEntry = .error fault) :
    ∃ name digits, fault = .fieldOverflow name digits := by
  induction entries with
  | nil => cases failed
  | cons entry entries ih =>
      obtain ⟨name, capture⟩ := entry
      rw [List.mapM_cons] at failed
      by_cases fits : captureNumber capture < UInt64.size
      · rw [readEntry_of_lt name capture fits] at failed
        cases later : entries.mapM readEntry with
        | error other =>
            rw [later] at failed
            cases failed
            exact ih later
        | ok others =>
            rw [later] at failed
            cases failed
      · cases capture with
        | none => exact absurd captureNumber_none_lt fits
        | some digits =>
            rw [readEntry_of_le name digits (Nat.not_lt.mp fits)] at failed
            cases failed
            exact ⟨name, String.ofList digits, rfl⟩

/-! ### Literals -/

namespace Version

theorem ofLiteral_of_readWhole? {scheme : Scheme} {literal : String}
    {captures : List (Option (List Char))}
    (read : scheme.readWhole? literal.toList = some captures) :
    ofLiteral scheme literal =
      (((scheme.fields.map Field.name).zip captures).mapM readEntry).map ofPairs := by
  unfold ofLiteral
  rw [read]
  change (((scheme.fields.map Field.name).zip captures).mapM readEntry >>=
    fun pairs => pure (ofPairs pairs)) = _
  cases ((scheme.fields.map Field.name).zip captures).mapM readEntry with
  | ok pairs => rfl
  | error fault => rfl

theorem ofLiteral_eq_noMatch_iff (scheme : Scheme) (literal : String) :
    ofLiteral scheme literal = .error .noMatch ↔
      scheme.readWhole? literal.toList = none := by
  cases read : scheme.readWhole? literal.toList with
  | none => simp [ofLiteral, read]
  | some captures =>
      rw [ofLiteral_of_readWhole? read]
      cases entries : ((scheme.fields.map Field.name).zip captures).mapM readEntry with
      | ok pairs => simp [Except.map]
      | error fault =>
          obtain ⟨name, digits, rfl⟩ := fieldOverflow_of_mapM_readEntry _ fault entries
          simp [Except.map]

theorem ofLiteral_of_chosen {scheme : Scheme} (formed : scheme.WellFormed)
    {literal : String} {captures : List (Option (List Char))}
    (chosen : scheme.Chosen literal.toList captures)
    (fit : ∀ capture ∈ captures, captureNumber capture < UInt64.size) :
    ∃ version, ofLiteral scheme literal = .ok version ∧
      version.entries =
        (scheme.fields.map Field.name).zip (captures.map captureValue) := by
  have read := (formed.readWhole?_eq_some_iff literal.toList captures).mpr chosen
  refine ⟨ofPairs ((scheme.fields.map Field.name).zip (captures.map captureValue)), ?_, ?_⟩
  · rw [ofLiteral_of_readWhole? read, mapM_readEntry_of_lt _ captures fit]
    rfl
  · obtain ⟨choice, derivation, _⟩ := chosen
    have length : (scheme.fields.map Field.name).length =
        (captures.map captureValue).length := by
      rw [List.length_map, List.length_map, derivation.length_captures,
        scheme.length_fields]
    refine entries_ofPairs _ ?_
    rw [List.map_fst_zip (Nat.le_of_eq length)]
    exact formed.distinct

theorem toNat_value_of_entries {version : Version} {names : List String}
    {captures : List (Option (List Char))}
    (entries : version.entries = names.zip (captures.map captureValue))
    (fit : ∀ capture ∈ captures, captureNumber capture < UInt64.size) {name : String}
    {capture : Option (List Char)} (member : (name, capture) ∈ names.zip captures) :
    (version.value name).toNat = captureNumber capture := by
  have entry : (name, captureValue capture) ∈ version.entries := by
    rw [entries, List.zip_map_right]
    exact List.mem_map.mpr ⟨(name, capture), member, rfl⟩
  rw [value, version.get?_of_mem _ _ entry, Option.getD_some]
  exact UInt64.toNat_ofNat_of_lt (fit capture (List.of_mem_zip member).2)

/-- Either every number of a literal fits and is read, or one does not and is reported. -/
theorem ofLiteral_cases {scheme : Scheme} (formed : scheme.WellFormed) {literal : String}
    {captures : List (Option (List Char))}
    (read : scheme.readWhole? literal.toList = some captures) :
    (∃ version, ofLiteral scheme literal = .ok version ∧
      (∀ capture ∈ captures, captureNumber capture < UInt64.size) ∧
      ∀ name capture, (name, capture) ∈ (scheme.fields.map Field.name).zip captures →
        (version.value name).toNat = captureNumber capture) ∨
    ∃ name digits, ofLiteral scheme literal = .error (.fieldOverflow name digits) ∧
      ∃ large, some large ∈ captures ∧ UInt64.size ≤ decimalValue large := by
  have chosen := formed.chosen_of_readWhole? read
  by_cases fit : ∀ capture ∈ captures, captureNumber capture < UInt64.size
  · left
    obtain ⟨version, accepted, entries⟩ := ofLiteral_of_chosen formed chosen fit
    exact ⟨version, accepted, fit, fun _ _ member => toNat_value_of_entries entries fit member⟩
  · right
    obtain ⟨capture, notFits⟩ := Classical.not_forall.mp fit
    obtain ⟨member, large⟩ := Classical.not_imp.mp notFits
    cases capture with
    | none => exact absurd captureNumber_none_lt large
    | some digits =>
        obtain ⟨choice, derivation, _⟩ := chosen
        have length : captures.length = (scheme.fields.map Field.name).length := by
          rw [List.length_map, derivation.length_captures, scheme.length_fields]
        rw [← List.map_snd_zip (Nat.le_of_eq length)] at member
        obtain ⟨⟨name, capture⟩, inZip, rfl⟩ := List.mem_map.mp member
        rw [ofLiteral_of_readWhole? read]
        cases entries : ((scheme.fields.map Field.name).zip captures).mapM readEntry with
        | ok pairs =>
            obtain ⟨pair, done⟩ := mapM_eq_ok entries _ inZip
            rw [readEntry_of_le name digits (Nat.not_lt.mp large)] at done
            cases done
        | error fault =>
            obtain ⟨other, otherDigits, rfl⟩ := fieldOverflow_of_mapM_readEntry _ fault entries
            exact ⟨other, otherDigits, rfl, digits, (List.of_mem_zip inZip).2, Nat.not_lt.mp large⟩

/-- A literal is refused exactly when no choice of groups derives it. Otherwise one
choice is preferred; the first field, in scheme order, whose digits denote a number
of `UInt64.size` or more is reported with its digits; and without such a field the version
has one entry per field, in scheme order, with the number its digits denote, or zero
if it was left out. -/
theorem ofLiteral_exact {definition : String} {scheme : Scheme}
    (compiled : Scheme.compile definition = .ok scheme) (literal : String) :
    (ofLiteral scheme literal = .error .noMatch ↔
      ¬ ∃ choice captures, scheme.whole.Derives choice captures literal.toList) ∧
    ((∃ choice captures, scheme.whole.Derives choice captures literal.toList) →
      ∃ captures, scheme.Chosen literal.toList captures) ∧
    ∀ captures, scheme.Chosen literal.toList captures →
      (∀ (index : Nat) name digits,
        (scheme.fields.map Field.name)[index]? = some name →
        captures[index]? = some (some digits) →
        UInt64.size ≤ decimalValue digits →
        (∀ (earlier : Nat) otherDigits, earlier < index →
          captures[earlier]? = some (some otherDigits) →
            decimalValue otherDigits < UInt64.size) →
          ofLiteral scheme literal =
            .error (.fieldOverflow name (String.ofList digits))) ∧
      ((∀ digits, some digits ∈ captures → decimalValue digits < UInt64.size) →
        ∃ version, ofLiteral scheme literal = .ok version ∧
          version.entries =
            (scheme.fields.map Field.name).zip (captures.map captureValue)) := by
  have formed := Scheme.wellFormed_of_compile compiled
  refine ⟨?_, ?_, ?_⟩
  · rw [ofLiteral_eq_noMatch_iff, formed.readWhole?_eq_none_iff]
  · intro derivable
    cases read : scheme.readWhole? literal.toList with
    | none => exact absurd derivable ((formed.readWhole?_eq_none_iff literal.toList).mp read)
    | some captures => exact ⟨captures, formed.chosen_of_readWhole? read⟩
  · intro captures chosen
    constructor
    · intro index name digits named captured large first
      have read := (formed.readWhole?_eq_some_iff literal.toList captures).mpr chosen
      have firstNumber : ∀ earlier capture, earlier < index →
          captures[earlier]? = some capture → captureNumber capture < UInt64.size := by
        intro earlier capture before present
        cases capture with
        | none => exact captureNumber_none_lt
        | some otherDigits => exact first earlier otherDigits before present
      rw [ofLiteral_of_readWhole? read,
        mapM_readEntry_of_le _ captures index name digits named captured large firstNumber]
      rfl
    · intro fit
      refine ofLiteral_of_chosen formed chosen ?_
      intro capture member
      cases capture with
      | none => exact captureNumber_none_lt
      | some digits => exact fit digits member

/-- The first of two groups with the same separator is left out, since only the
second one can be followed by the rest of the literal. -/
theorem ofLiteral_second_sibling :
    Scheme.compile "a[.b][.c-d]" =
      .ok ⟨"a", .group (.field "." "b" .done)
        (.group (.field "." "c" (.field "-" "d" .done)) .done)⟩ ∧
    ∃ version,
      ofLiteral ⟨"a", .group (.field "." "b" .done)
        (.group (.field "." "c" (.field "-" "d" .done)) .done)⟩ "1.02-3" = .ok version ∧
      version.entries = [("a", 1), ("b", 0), ("c", 2), ("d", 3)] := by
  have compiled : Scheme.compile "a[.b][.c-d]" =
      .ok ⟨"a", .group (.field "." "b" .done)
        (.group (.field "." "c" (.field "-" "d" .done)) .done)⟩ := by rfl
  have formed := Scheme.wellFormed_of_compile compiled
  have chosen : Scheme.Chosen _ "1.02-3".toList
      [some ['1'], none, some ['0', '2'], some ['3']] :=
    formed.chosen_of_readWhole? (by rfl)
  refine ⟨compiled, ((ofLiteral_exact compiled "1.02-3").2.2 _ chosen).2 ?_⟩
  intro digits member
  simp only [List.mem_cons, Option.some.injEq, reduceCtorEq, List.not_mem_nil, or_false,
    false_or] at member
  rcases member with rfl | rfl | rfl
  · decide
  · decide
  · decide

end Version

end Versioning
