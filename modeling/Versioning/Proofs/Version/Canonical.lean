import Versioning.Proofs.Scheme.Leftmost
import Versioning.Proofs.Version.Groups

/-!
Literals that are rendered as they are written.

A version keeps the numbers of a literal, not how they were spelled or which zero fields
were written down. So a literal that is read and rendered again stays as it is exactly if
its numbers have no superfluous zeros in front and it spells the fields that rendering
shows, no more and no fewer.
-/

namespace Versioning

/-! ### The numbers in a text -/

def numerals (text : List Char) : List (List Char) :=
  (text.splitOnP (! ·.isDigit)).filter (· ≠ [])

theorem numerals_append_cons (text later : List Char) {c : Char} (other : c.isDigit = false) :
    numerals (text ++ c :: later) = numerals text ++ numerals later := by
  unfold numerals
  rw [List.splitOnP_append_cons _ _ (by simp [other]), List.filter_append]

private theorem numerals_of_isRun {digits : List Char} (isRun : IsRun Char.isDigit digits) :
    numerals digits = [digits] := by
  unfold numerals
  rw [List.splitOnP_eq_singleton fun c member => by simp [isRun.2 c member]]
  simp [isRun.1]

private theorem numerals_marks_append {marks : List Char}
    (areMarks : ∀ c ∈ marks, isMarkChar c = true)
    (later : List Char) : numerals (marks ++ later) = numerals later := by
  induction marks with
  | nil => rfl
  | cons c marks ih =>
      have first := List.forall_mem_cons.mp areMarks
      have next := numerals_append_cons [] (marks ++ later)
        (isDigit_eq_false_of_isMarkChar c first.1)
      exact next.trans (ih first.2)

theorem numerals_append_of_start (text : List Char) {later : List Char}
    (ended : startsWithDigit later = false) :
    numerals (text ++ later) = numerals text ++ numerals later := by
  cases later with
  | nil =>
      rw [List.append_nil]
      exact (List.append_nil _).symm
  | cons c later =>
      have other : c.isDigit = false := by simpa [startsWithDigit] using ended
      have next := numerals_append_cons [] later other
      rw [numerals_append_cons text later other]
      exact congrArg (numerals text ++ ·) next.symm

private theorem numerals_digits_append {digits later : List Char}
    (isRun : IsRun Char.isDigit digits)
    (ended : startsWithDigit later = false) :
    numerals (digits ++ later) = digits :: numerals later := by
  rw [numerals_append_of_start digits ended, numerals_of_isRun isRun, List.singleton_append]

private theorem numerals_segmentsText {parts : List (List Char × List Char)}
    (areSegments : ∀ part ∈ parts, IsSegment part) :
    numerals (segmentsText parts) = parts.map Prod.snd := by
  induction parts with
  | nil => rfl
  | cons part parts ih =>
      have first := List.forall_mem_cons.mp areSegments
      have ended := startsWithDigit_segmentsText parts first.2
        (show startsWithDigit [] = false from rfl)
      rw [List.append_nil] at ended
      calc
        _ = numerals (part.1 ++ (part.2 ++ segmentsText parts)) := by
          rw [← List.append_assoc]
          rfl
        _ = part.2 :: numerals (segmentsText parts) := by
          rw [numerals_marks_append first.1.1.2, numerals_digits_append first.1.2 ended]
        _ = _ := by rw [ih first.2, List.map_cons]

private theorem map_snd_segments {labels : List (String × String)}
    {captures : List (Option (List Char))}
    (length : labels.length = captures.length) :
    (segments labels captures).map Prod.snd = captures.filterMap id := by
  calc
    _ = (labels.zip captures).filterMap Prod.snd := by
      unfold segments
      rw [List.map_filterMap]
      refine congrArg (List.filterMap · _) (funext fun entry => ?_)
      cases entry.2 with
      | none => rfl
      | some digits => rfl
    _ = ((labels.zip captures).map Prod.snd).filterMap id := by
      rw [List.filterMap_map]
      rfl
    _ = _ := by rw [List.map_snd_zip (Nat.le_of_eq length.symm)]

/-- The runs of digits in a literal are those that its fields were read from. -/
theorem Scheme.WellFormed.numerals_of_derives {scheme : Scheme} (formed : scheme.WellFormed)
    {choice : List Bool} {captures : List (Option (List Char))} {text : List Char}
    (derivation : scheme.whole.Derives choice captures text) :
    numerals text = captures.filterMap id := by
  cases derivation with
  | @field _ _ _ digits choice captures text isRun derivation =>
      have areSegments := derivation.isSegment formed.body
      have length : (Piece.labels scheme.body.pieces).length = captures.length := by
        rw [scheme.body.length_labels, derivation.length_captures]
      have ended := derivation.startsWithDigit_append formed.body
        (show startsWithDigit [] = false from rfl)
      rw [List.append_nil] at ended
      change numerals (digits ++ text) = digits :: captures.filterMap id
      rw [numerals_digits_append isRun ended, ← derivation.segmentsText_eq,
        numerals_segmentsText areSegments, map_snd_segments length]

/-! ### Superfluous zeros -/

def Unpadded (digits : List Char) : Prop :=
  digits.head? = some '0' → digits = ['0']

instance (digits : List Char) : Decidable (Unpadded digits) :=
  inferInstanceAs (Decidable (digits.head? = some '0' → digits = ['0']))

theorem unpadded_toDigits (value : Nat) : Unpadded (Nat.toDigits 10 value) := by
  induction value using Nat.strongRecOn with
  | ind value ih =>
      intro zero
      by_cases small : value < 10
      · rw [Nat.toDigits_of_lt_base small] at zero ⊢
        exact congrArg (· :: []) (Option.some.inj zero)
      · have large : 10 ≤ value := Nat.not_lt.mp small
        -- The first digit is also that of the number without its last digit, which is not zero.
        have filled : Nat.toDigits 10 (value / 10) ≠ [] := Nat.toDigits_ne_nil
        rw [Nat.toDigits_of_base_le (by decide) large, List.head?_append,
          List.head?_eq_some_head filled, Option.some_or, ← List.head?_eq_some_head filled] at zero
        have less := ih (value / 10) (by omega) zero
        have quotient : Nat.ofDigitChars 10 (Nat.toDigits 10 (value / 10)) 0 = value / 10 :=
          Nat.ofDigitChars_ten_toDigits
        rw [less] at quotient
        have none : value / 10 = 0 := quotient.symm
        omega

private theorem digit_bounds {c : Char} (digit : c.isDigit = true) :
    '0'.toNat ≤ c.toNat ∧ c.toNat ≤ '9'.toNat := by
  simpa [Char.isDigit, UInt32.le_iff_toNat_le] using digit

private theorem digit_lt_ten {c : Char} (digit : c.isDigit = true) : c.toNat - '0'.toNat < 10 :=
  Nat.sub_lt_left_of_lt_add (digit_bounds digit).1 (Nat.lt_succ_of_le (digit_bounds digit).2)

private theorem toDigits_digit {c : Char} (digit : c.isDigit = true) :
    Nat.toDigits 10 (c.toNat - '0'.toNat) = [c] := by
  rw [Nat.toDigits_of_lt_base (digit_lt_ten digit)]
  refine congrArg (· :: []) (Char.toNat_inj.mp ?_)
  rw [Nat.toNat_digitChar_of_lt_ten (digit_lt_ten digit)]
  exact Nat.add_sub_cancel' (digit_bounds digit).1

/-- Digits behind a number that is not zero are kept as they are. -/
theorem toDigits_ofDigitChars {digits : List Char} (areDigits : ∀ c ∈ digits, c.isDigit = true)
    {value : Nat} (positive : 0 < value) :
    Nat.toDigits 10 (Nat.ofDigitChars 10 digits value) = Nat.toDigits 10 value ++ digits := by
  induction digits generalizing value with
  | nil => rw [Nat.ofDigitChars_nil, List.append_nil]
  | cons c digits ih =>
      have first := List.forall_mem_cons.mp areDigits
      rw [Nat.ofDigitChars_cons, ih first.2 (by omega),
        ← Nat.toDigits_append_toDigits (by decide) positive (digit_lt_ten first.1),
        toDigits_digit first.1, List.append_assoc]
      rfl

private theorem toDigits_decimalValue {digits : List Char} (isRun : IsRun Char.isDigit digits)
    (unpadded : Unpadded digits) : Nat.toDigits 10 (decimalValue digits) = digits := by
  by_cases zero : digits.head? = some '0'
  · rw [unpadded zero]
    decide
  · cases digits with
    | nil => exact absurd rfl isRun.1
    | cons c digits =>
        have first := List.forall_mem_cons.mp isRun.2
        have other : '0'.toNat ≠ c.toNat := by
          intro same
          exact zero (congrArg some (Char.toNat_inj.mp same).symm)
        have positive : 0 < c.toNat - '0'.toNat :=
          Nat.sub_pos_of_lt (Nat.lt_of_le_of_ne (digit_bounds first.1).1 other)
        rw [decimalValue, Nat.ofDigitChars_cons, Nat.mul_zero, Nat.zero_add,
          toDigits_ofDigitChars first.2 positive, toDigits_digit first.1]
        rfl

/-! ### Rendering a literal again -/

private theorem Body.Derives.isRun {body : Body} {choice : List Bool}
    {captures : List (Option (List Char))} {text : List Char}
    (derivation : body.Derives choice captures text) :
    ∀ digits, some digits ∈ captures → IsRun Char.isDigit digits := by
  induction derivation with
  | done =>
      intro digits member
      cases member
  | field isRun _ ih =>
      intro digits member
      rcases List.mem_cons.mp member with same | later
      · cases same
        exact isRun
      · exact ih digits later
  | included _ _ ihInner ih =>
      intro digits member
      exact (List.mem_append.mp member).elim (ihInner digits) (ih digits)
  | leftOut _ ih =>
      intro digits member
      rcases List.mem_append.mp member with none | later
      · cases (List.mem_replicate.mp none).2
      · exact ih digits later

/-- The captures give the fields of the scheme the numbers of the version. -/
def Version.ReadFrom (scheme : Scheme) (captures : List (Option (List Char)))
    (version : Version) : Prop :=
  ∀ name capture, (name, capture) ∈ (scheme.fields.map Field.name).zip captures →
    (version.value name).toNat = captureNumber capture

theorem Version.ReadFrom.toNat_value {scheme : Scheme} {captures : List (Option (List Char))}
    {version : Version} (readFrom : version.ReadFrom scheme captures) {index : Nat}
    {field : Field} {capture : Option (List Char)}
    (present : scheme.fields[index]? = some field) (captured : captures[index]? = some capture) :
    (version.value field.name).toNat = captureNumber capture := by
  apply readFrom
  apply List.mem_of_getElem?
  rw [List.getElem?_zip_eq_some, List.getElem?_map, present]
  exact ⟨rfl, captured⟩

/-- A field that was captured without superfluous zeros was captured as it is rendered. -/
private theorem capture_eq_kept {version : Version} {name : String} {capture : Option (List Char)}
    {shown : Prop} [Decidable shown]
    (number : (version.value name).toNat = captureNumber capture)
    (isRun : ∀ digits, capture = some digits → IsRun Char.isDigit digits)
    (unpadded : ∀ digits, capture = some digits → Unpadded digits)
    (captured : (∃ digits, capture = some digits) ↔ shown) :
    capture = if shown then some (version.digits name) else none := by
  cases capture with
  | none =>
      have hidden : ¬ shown := by
        intro present
        obtain ⟨digits, impossible⟩ := captured.mpr present
        cases impossible
      rw [if_neg hidden]
  | some digits =>
      rw [if_pos (captured.mp ⟨digits, rfl⟩), Version.digits, number]
      exact congrArg some
        (toDigits_decimalValue (isRun digits rfl) (unpadded digits rfl)).symm

namespace Scheme

/-- The captures spell the fields all of whose groups start before the cut, and no others. -/
def SpellsShown (scheme : Scheme) (cut : Nat) (captures : List (Option (List Char))) : Prop :=
  ∀ index < scheme.fields.length,
    (∃ digits, captures[index]? = some (some digits)) ↔ Shown scheme.groups cut index

variable {scheme : Scheme} {version : Version} {captures : List (Option (List Char))}

private theorem getElem?_keptCaptures (scheme : Scheme) (version : Version) (cut index : Nat) :
    (scheme.whole.keptCaptures version cut 0)[index]? =
      scheme.fields[index]?.map fun field =>
        if Shown scheme.groups cut index then some (version.digits field.name) else none := by
  have fields : scheme.whole.fields 0 = scheme.fields := rfl
  rw [scheme.whole.keptCaptures_eq version cut 0 0, List.getElem?_map, List.getElem?_zipIdx,
    Option.map_map, fields, Nat.zero_add]
  rfl

theorem captures_eq_kept_iff {choice : List Bool} {text : List Char}
    (derivation : scheme.whole.Derives choice captures text)
    (readFrom : version.ReadFrom scheme captures) (cut : Nat) :
    captures = scheme.whole.keptCaptures version cut 0 ↔
      (∀ digits, some digits ∈ captures → Unpadded digits) ∧ scheme.SpellsShown cut captures := by
  constructor
  · intro same
    constructor
    · intro digits member
      obtain ⟨index, present⟩ := List.mem_iff_getElem?.mp member
      rw [same, scheme.getElem?_keptCaptures] at present
      obtain ⟨field, _, shown⟩ := Option.map_eq_some_iff.mp present
      split at shown
      next =>
        cases shown
        exact unpadded_toDigits _
      next => cases shown
    · intro index within
      rw [same, scheme.getElem?_keptCaptures, List.getElem?_eq_getElem within]
      by_cases shown : Shown scheme.groups cut index
      · simp [shown]
      · simp [shown]
  · rintro ⟨unpadded, spells⟩
    have length : captures.length = scheme.fields.length := by
      rw [derivation.length_captures, scheme.length_fields]
    -- Both lists have an entry for every field, so they are compared field by field.
    apply List.ext_getElem?
    intro index
    rw [scheme.getElem?_keptCaptures]
    by_cases within : index < scheme.fields.length
    · have inside : index < captures.length := length ▸ within
      have number := readFrom.toNat_value (List.getElem?_eq_getElem within)
        (List.getElem?_eq_getElem inside)
      have known (digits : List Char) (same : captures[index] = some digits) :
          some digits ∈ captures := same ▸ List.getElem_mem inside
      have spelled := spells index within
      rw [List.getElem?_eq_getElem inside] at spelled ⊢
      simp only [Option.some.injEq] at spelled
      rw [List.getElem?_eq_getElem within, Option.map_some]
      exact congrArg some (capture_eq_kept number
        (fun digits same => derivation.isRun digits (known digits same))
        (fun digits same => unpadded digits (known digits same)) spelled)
    · have beyond : scheme.fields.length ≤ index := Nat.not_lt.mp within
      rw [List.getElem?_eq_none beyond, List.getElem?_eq_none (length ▸ beyond)]
      rfl

/-- A literal is rendered as it was written exactly if its numbers have no superfluous zeros
in front and it spells the fields that are shown. -/
theorem WellFormed.render_eq_iff (formed : scheme.WellFormed) {literal : String}
    (chosen : scheme.Chosen literal.toList captures)
    (readFrom : version.ReadFrom scheme captures) :
    version.render scheme = literal ↔
      (∀ digits ∈ numerals literal.toList, Unpadded digits) ∧
        scheme.SpellsShown (version.cut scheme) captures := by
  have read := (formed.readWhole?_eq_some_iff literal.toList captures).mpr chosen
  obtain ⟨choice, derivation, _⟩ := chosen
  have numbers : (∀ digits ∈ numerals literal.toList, Unpadded digits) ↔
      ∀ digits, some digits ∈ captures → Unpadded digits := by
    rw [formed.numerals_of_derives derivation]
    simp
  rw [numbers, ← captures_eq_kept_iff derivation readFrom]
  constructor
  · intro same
    rw [← same, formed.readWhole?_render] at read
    exact (Option.some.inj read).symm
  · intro same
    rw [← String.toList_inj, Version.toList_render formed,
      ← (scheme.whole.derives_kept version _ 0).segmentsText_eq, ← same,
      derivation.segmentsText_eq]

end Scheme

namespace Version

theorem entries_eq_map_value (version : Version) :
    version.entries = version.names.map fun name => (name, version.value name) := by
  rw [names, List.map_map]
  refine (List.map_id _).symm.trans (List.map_congr_left fun entry member => ?_)
  have number : version.value entry.1 = entry.2 := by
    rw [value, version.get?_of_mem entry.1 entry.2 member, Option.getD_some]
  exact congrArg (Prod.mk entry.1) number.symm

private theorem eq_of_entries_eq {left right : Version} (same : left.entries = right.entries) :
    left = right := by
  cases left
  cases right
  cases same
  rfl

/-- A version that has the fields of the scheme in their order is read back from its
literal. -/
theorem ofLiteral_render_of_names {scheme : Scheme} (formed : scheme.WellFormed)
    {version : Version} (names : version.names = scheme.fields.map Field.name) :
    ofLiteral scheme (version.render scheme) = .ok version := by
  obtain ⟨read, accepted, entries⟩ := ofLiteral_of_render formed version
  have same : read = version := by
    apply eq_of_entries_eq
    rw [entries, version.entries_eq_map_value, names, List.map_map]
    rfl
  rw [accepted, same]

/-- Where every run of digits in a literal fits, its numbers are read. -/
theorem ofLiteral_of_numerals {scheme : Scheme} (formed : scheme.WellFormed) {literal : String}
    {captures : List (Option (List Char))} (chosen : scheme.Chosen literal.toList captures)
    (fit : ∀ digits ∈ numerals literal.toList, decimalValue digits < UInt64.size) :
    ∃ version, ofLiteral scheme literal = .ok version ∧
      version.names = scheme.fields.map Field.name ∧ version.ReadFrom scheme captures := by
  obtain ⟨choice, derivation, _⟩ := id chosen
  have numbersFit : ∀ capture ∈ captures, captureNumber capture < UInt64.size := by
    intro capture member
    cases capture with
    | none => exact captureNumber_none_lt
    | some digits =>
        apply fit
        rw [formed.numerals_of_derives derivation]
        exact List.mem_filterMap.mpr ⟨some digits, member, rfl⟩
  obtain ⟨version, accepted, entries⟩ := ofLiteral_of_chosen formed chosen numbersFit
  have length : (scheme.fields.map Field.name).length = (captures.map captureValue).length := by
    rw [List.length_map, List.length_map, derivation.length_captures, scheme.length_fields]
  refine ⟨version, accepted, ?_, ?_⟩
  · rw [names, entries, List.map_fst_zip (Nat.le_of_eq length)]
  · exact fun _ _ member => toNat_value_of_entries entries numbersFit member

/-- A version that was read from a literal has the numbers of its captures. -/
theorem readFrom_of_ofLiteral {scheme : Scheme} (formed : scheme.WellFormed) {literal : String}
    {version : Version} (read : ofLiteral scheme literal = .ok version) :
    ∃ captures, scheme.Chosen literal.toList captures ∧ version.ReadFrom scheme captures := by
  cases answer : scheme.readWhole? literal.toList with
  | none =>
      rw [(ofLiteral_eq_noMatch_iff scheme literal).mpr answer] at read
      cases read
  | some captures =>
      refine ⟨captures, formed.chosen_of_readWhole? answer, ?_⟩
      rcases ofLiteral_cases formed answer with ⟨other, accepted, _, numbers⟩ | refused
      · rw [accepted] at read
        cases read
        exact numbers
      · obtain ⟨name, digits, refuses, _⟩ := refused
        rw [refuses] at read
        cases read

end Version

end Versioning
