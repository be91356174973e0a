import Mathlib.Data.List.Infix
import Versioning.Scheme.Reading

/-!
The table of answers and the meaning of a scheme.

The row of a body lists, for every suffix of a text, what `Body.readThen`
answers there. So the search and the reading of a whole text, which run on
rows, can be taken for what `Body.readThen` says.
-/

namespace Versioning

/-! ### Suffixes -/

theorem suffixes_eq_tails {α : Type} (items : List α) : suffixes items = items.tails := by
  induction items with
  | nil => rfl
  | cons item items ih =>
      change (item :: (suffixes items).headD []) :: suffixes items = _
      rw [ih, List.tails_cons]
      cases items with
      | nil => rfl
      | cons _ _ => rfl

theorem head?_tails {α : Type} (items : List α) : items.tails.head? = some items := by
  cases items with
  | nil => rfl
  | cons item items => rfl

/-! ### Separators -/

theorem afterSeparator?_eq (separator text : List Char) :
    afterSeparator? separator text =
      if separator.isPrefixOf text then some (text.drop separator.length) else none := by
  induction separator generalizing text with
  | nil => simp [afterSeparator?]
  | cons mark separator ih =>
      cases text with
      | nil => rfl
      | cons c text =>
          by_cases same : mark = c
          · simp [afterSeparator?, same, ih]
          · simp [afterSeparator?, same]

/-- A separator is taken off every suffix at once. -/
theorem separatorRow_map (separator : List Char) (answer : List Char → Option Reading)
    (text : List Char) :
    separatorRow separator text.tails (text.tails.map answer) =
      text.tails.map fun text => (afterSeparator? separator text).bind answer := by
  have atFront (text : List Char) :
      (if separator.isPrefixOf text then
        ((text.tails.map answer).drop separator.length).head?.join else none) =
      (afterSeparator? separator text).bind answer := by
    rw [afterSeparator?_eq]
    split
    · next isStart =>
        have enough : separator.length < text.tails.length := by
          rw [List.length_tails]
          exact Nat.lt_succ_of_le (List.isPrefixOf_iff_prefix.mp isStart).length_le
        rw [← List.map_drop, List.head?_map, List.head?_drop, List.getElem?_eq_getElem enough,
          List.getElem_tails]
        rfl
    · rfl
  rw [separatorRow, suffixes_eq_tails]
  induction text with
  | nil => exact congrArg (· :: []) (atFront [])
  | cons c text ih =>
      have front := atFront (c :: text)
      rw [List.tails_cons, List.map_cons] at front ⊢
      rw [List.tails_cons, List.zipWith_cons_cons, List.map_cons, front, ih]

/-! ### Runs of digits -/

private theorem readDigits_of_not_digit (following : List Char → Option Reading) (c : Char)
    (text : List Char) (other : c.isDigit = false) :
    readDigits following (c :: text) = none := by
  simp [readDigits, other]

/-- A digit in front of other digits lengthens their run. -/
private theorem readDigits_cons_of_digit (following : List Char → Option Reading) (c : Char)
    (text : List Char) (digit : c.isDigit = true)
    (more : text.head?.any Char.isDigit = true) :
    readDigits following (c :: text) = (readDigits following text).map (·.extend c) := by
  cases text with
  | nil => simp at more
  | cons d text =>
      have another : d.isDigit = true := by simpa using more
      simp [readDigits, digit, another, Reading.capture, Reading.extend, Function.comp_def]

/-- A digit in front of anything else is a run of its own. -/
private theorem readDigits_cons_of_last_digit (following : List Char → Option Reading) (c : Char)
    (text : List Char) (digit : c.isDigit = true)
    (last : text.head?.any Char.isDigit = false) :
    readDigits following (c :: text) = (following text).map (·.capture [c]) := by
  cases text with
  | nil => simp [readDigits, digit]
  | cons d text =>
      have other : d.isDigit = false := by simpa using last
      simp [readDigits, digit, other]

/-- What stands at the front of the runs of digits, given the runs of the text
after the first character. -/
private theorem digitRuns_cons (c : Char) (text : List Char)
    (following : List Char → Option Reading) :
    digitRuns (c :: text) ((c :: text).tails.map following) =
      (if c.isDigit then
        match (digitRuns text (text.tails.map following)).head? with
        | some (some reading) => some (reading.map (·.extend c))
        | _ => some ((following text).map (·.capture [c]))
      else
        none) :: digitRuns text (text.tails.map following) := by
  have pairs : (c :: text).zip ((c :: text).tails.map following).tail =
      (c, following text) :: text.zip (text.tails.map following).tail := by
    rw [List.tails_cons, List.map_cons, List.tail_cons,
      List.eq_cons_of_mem_head? (head?_tails text), List.map_cons, List.tail_cons,
      List.zip_cons_cons]
  exact (congrArg (List.foldr _ [none]) pairs).trans rfl

/-- The runs of digits are read at every suffix at once. -/
theorem digitRuns_map (following : List Char → Option Reading) (text : List Char) :
    digitRuns text (text.tails.map following) =
      text.tails.map fun text =>
        if text.head?.any Char.isDigit then some (readDigits following text) else none := by
  induction text with
  | nil => rfl
  | cons c text ih =>
      rw [digitRuns_cons, ih, List.tails_cons, List.map_cons, List.head?_map, head?_tails]
      congr 1
      by_cases digit : c.isDigit = true
      · by_cases more : text.head?.any Char.isDigit = true
        · simp [digit, more, readDigits_cons_of_digit]
        · have last : text.head?.any Char.isDigit = false := by simpa using more
          simp [digit, last, readDigits_cons_of_last_digit]
      · simp [digit]

private theorem join_map_digitRuns (following : List Char → Option Reading) (text : List Char) :
    (digitRuns text (text.tails.map following)).map Option.join =
      text.tails.map (readDigits following) := by
  rw [digitRuns_map, List.map_map]
  refine List.map_congr_left fun text _ => ?_
  cases text with
  | nil => rfl
  | cons c text =>
      by_cases digit : c.isDigit = true
      · simp [digit]
      · have other : c.isDigit = false := by simpa using digit
        simp [other, readDigits_of_not_digit]

/-! ### Bodies and schemes -/

/-- The row of a body lists what the body reads at every suffix. -/
theorem Body.rows_map (body : Body) (next : List Char → Option Reading)
    (text : List Char) :
    body.rows text text.tails (text.tails.map next) = text.tails.map (body.readThen next) := by
  induction body generalizing next with
  | done => rfl
  | field separator name rest ih =>
      rw [Body.rows, ih, join_map_digitRuns, separatorRow_map]
      refine List.map_congr_left fun text _ => ?_
      rw [Body.readThen]
      cases afterSeparator? separator.toList text <;> rfl
  | group inner rest ihInner ihRest =>
      rw [Body.rows, ihRest, ihInner, List.zipWith_map, List.zipWith_self]
      rfl

theorem Scheme.rows_eq (scheme : Scheme) (next : List Char → Option Reading)
    (text : List Char) :
    scheme.rows next text = text.tails.map (scheme.whole.readThen next) := by
  rw [rows, suffixes_eq_tails]
  exact scheme.whole.rows_map next text

/-- A whole text is read as the scheme reads it when nothing may follow. -/
theorem Scheme.readWhole?_eq (scheme : Scheme) (text : List Char) :
    scheme.readWhole? text = (scheme.whole.readThen readEnd text).map Reading.captures := by
  rw [Scheme.readWhole?, Scheme.rows_eq, List.head?_map, head?_tails]
  rfl

end Versioning
