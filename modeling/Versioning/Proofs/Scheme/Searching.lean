import Versioning.Proofs.Scheme.Derivation

/-!
Searching a text for a version.

A search goes through the suffixes of a text and stops at the first one that has a
reading. A version starts with a digit, so nothing is found in front of the first
digit, and what is read ends where no run of digits goes on.
-/

namespace Versioning

/-! ### Readings at the start of a text -/

def ReadsRest (text : List Char) (choice : List Bool) (reading : Reading) : Prop :=
  choice = [] ∧ reading = { captures := [], rest := text }

theorem isBest_readRest (text : List Char) : IsBest (ReadsRest text) (readRest text) := by
  refine ⟨[], ⟨rfl, rfl⟩, ?_⟩
  rintro other reading ⟨rfl, _⟩
  exact .same []

private theorem Body.Reads.mono {body : Body} {next other : List Char → List Bool → Reading → Prop}
    (implies : ∀ text choice reading, next text choice reading → other text choice reading)
    {text : List Char} {choice : List Bool} {reading : Reading}
    (reads : body.Reads next text choice reading) : body.Reads other text choice reading := by
  induction body generalizing next other text choice reading with
  | done => exact implies text choice reading reads
  | field separator name rest ih =>
      obtain ⟨digits, following, after, textEq, isRun, stopped, reads, readingEq⟩ := reads
      exact ⟨digits, following, after, textEq, isRun, stopped, ih implies reads, readingEq⟩
  | group inner rest ihInner ihRest =>
      rcases reads with ⟨later, choiceEq, reads⟩ | ⟨later, after, choiceEq, reads, readingEq⟩
      · refine .inl ⟨later, choiceEq, ihInner ?_ reads⟩
        intro text choice reading reads
        exact ihRest implies reads
      · exact .inr ⟨later, after, choiceEq, ihRest implies reads, readingEq⟩

/-- What comes after a body starts with no digit either, because every run of digits
is as long as it can be. -/
private theorem Body.Reads.ended {body : Body} {next : List Char → List Bool → Reading → Prop}
    {text : List Char} {choice : List Bool} {reading : Reading}
    (reads : body.Reads next text choice reading) (ended : startsWithDigit text = false) :
    body.Reads (fun later choice reading =>
      startsWithDigit later = false ∧ next later choice reading) text choice reading := by
  induction body generalizing next text choice reading with
  | done => exact ⟨ended, reads⟩
  | field separator name rest ih =>
      obtain ⟨digits, following, after, textEq, isRun, stopped, reads, readingEq⟩ := reads
      exact ⟨digits, following, after, textEq, isRun, stopped, ih reads stopped, readingEq⟩
  | group inner rest ihInner ihRest =>
      rcases reads with ⟨later, choiceEq, reads⟩ | ⟨later, after, choiceEq, reads, readingEq⟩
      · refine .inl ⟨later, choiceEq, ?_⟩
        exact (ihInner reads ended).mono fun _ _ _ both => ihRest both.2 both.1
      · exact .inr ⟨later, after, choiceEq, ihRest reads ended, readingEq⟩

namespace Scheme

theorem isBest_readFront (scheme : Scheme) (text : List Char) :
    IsBest (scheme.whole.Reads ReadsRest text) (scheme.whole.readThen readRest text) :=
  scheme.whole.isBest_readThen readRest ReadsRest isBest_readRest text

/-- A reading at the start of a text splits it after a derived text that no digit
follows. -/
theorem derives_of_reads_rest {scheme : Scheme} {choice : List Bool} {reading : Reading}
    {text : List Char} (reads : scheme.whole.Reads ReadsRest text choice reading) :
    ∃ consumed, scheme.whole.Derives choice reading.captures consumed ∧
      text = consumed ++ reading.rest ∧ startsWithDigit reading.rest = false := by
  obtain ⟨digits, following, after, rfl, isRun, stopped, reads, rfl⟩ := reads
  obtain ⟨own, captures, consumed, later, others, final, derivation, rfl, rfl,
    ⟨ended, rfl, rfl⟩, rfl⟩ := (reads.ended stopped).derives
  refine ⟨"".toList ++ (digits ++ consumed), ?_, ?_, ended⟩
  · rw [List.append_nil, List.append_nil]
    exact .field isRun derivation
  · simp [Reading.capture]

theorem WellFormed.reads_rest {scheme : Scheme} (formed : scheme.WellFormed)
    {choice : List Bool} {captures : List (Option (List Char))} {consumed following : List Char}
    (derivation : scheme.whole.Derives choice captures consumed)
    (ended : startsWithDigit following = false) :
    scheme.whole.Reads ReadsRest (consumed ++ following) choice
      { captures, rest := following } := by
  have atEnd : ReadsRest following [] { captures := [], rest := following } := ⟨rfl, rfl⟩
  have reads := formed.reads derivation ended atEnd
  simpa using reads

theorem readThen_eq_none {scheme : Scheme} (next : List Char → Option Reading)
    {text : List Char} (noDigit : startsWithDigit text = false) :
    scheme.whole.readThen next text = none := by
  have noDigits : text.takeWhile Char.isDigit = [] := by
    cases text with
    | nil => rfl
    | cons c text =>
        have other : c.isDigit = false := by simpa [startsWithDigit] using noDigit
        simp [other]
  exact readDigits_of_takeWhile_eq_nil _ noDigits

end Scheme

/-! ### The first suffix with a reading -/

/-- The first suffix of a text that has an answer, with the number of characters in
front of it. -/
theorem findSome?_tails {answer : List Char → Option Reading} {before found : List Char}
    {reading : Reading} (read : answer found = some reading)
    (first : ∀ skipped more, before = skipped ++ more → more ≠ [] →
      answer (more ++ found) = none) (start : Nat) :
    (((before ++ found).tails.map answer).zipIdx start).findSome?
      (fun (answer, index) => answer.map fun reading => (index, reading)) =
        some (start + before.length, reading) := by
  induction before generalizing start with
  | nil =>
      rw [List.nil_append, List.eq_cons_of_mem_head? (head?_tails found), List.map_cons,
        List.zipIdx_cons, List.findSome?_cons, read]
      rfl
  | cons c before ih =>
      have here := first [] (c :: before) rfl (List.cons_ne_nil c before)
      have later := ih (fun skipped more same => first (c :: skipped) more (by rw [same]; rfl))
        (start + 1)
      rw [List.cons_append] at here ⊢
      rw [List.tails_cons, List.map_cons, List.zipIdx_cons, List.findSome?_cons, here]
      simp only [Option.map_none]
      rw [later, List.length_cons]
      congr 2
      omega

theorem findSome?_tails_eq_none {answer : List Char → Option Reading} {text : List Char}
    (nowhere : ∀ skipped found, text = skipped ++ found → answer found = none) :
    ((text.tails.map answer).zipIdx).findSome?
      (fun (answer, index) => answer.map fun reading => (index, reading)) = none := by
  apply List.findSome?_eq_none_iff.mpr
  intro entry member
  obtain ⟨found, isSuffix, same⟩ := List.mem_map.mp (List.fst_mem_of_mem_zipIdx member)
  obtain ⟨skipped, textEq⟩ := (List.mem_tails _ _).mp isSuffix
  change entry.1.map _ = none
  rw [← same, nowhere skipped found textEq.symm]
  rfl

/-- Either no suffix of a text has an answer, or there is a first one that has. -/
theorem first_answer_cases (answer : List Char → Option Reading) (text : List Char) :
    (∀ skipped found, text = skipped ++ found → answer found = none) ∨
      ∃ before found reading, text = before ++ found ∧ answer found = some reading ∧
        ∀ skipped more, before = skipped ++ more → more ≠ [] →
          answer (more ++ found) = none := by
  induction text with
  | nil =>
      cases here : answer [] with
      | none =>
          left
          intro skipped found same
          rw [(List.append_eq_nil_iff.mp same.symm).2]
          exact here
      | some reading =>
          right
          refine ⟨[], [], reading, rfl, here, ?_⟩
          intro skipped more same filled
          exact absurd (List.append_eq_nil_iff.mp same.symm).2 filled
  | cons c text ih =>
      cases here : answer (c :: text) with
      | some reading =>
          right
          refine ⟨[], c :: text, reading, rfl, here, ?_⟩
          intro skipped more same filled
          exact absurd (List.append_eq_nil_iff.mp same.symm).2 filled
      | none =>
          rcases ih with nowhere | ⟨before, found, reading, rfl, read, first⟩
          · left
            intro skipped found same
            cases skipped with
            | nil =>
                rw [List.nil_append] at same
                rw [← same]
                exact here
            | cons d skipped => exact nowhere skipped found (List.cons.inj same).2
          · right
            refine ⟨c :: before, found, reading, rfl, read, ?_⟩
            intro skipped more same filled
            cases skipped with
            | nil =>
                rw [List.nil_append] at same
                rw [← same]
                exact here
            | cons d skipped => exact first skipped more (List.cons.inj same).2 filled

def Scheme.firstReading? (scheme : Scheme) (text : List Char) : Option (Nat × Reading) :=
  (scheme.rows readRest text).zipIdx.findSome? fun (answer, index) =>
    answer.map fun reading => (index, reading)

/-- The search of `Scheme.find?` with the digits of every field in what it finds. -/
def Scheme.search? (scheme : Scheme) (text : String) :
    Option (Occurrence × List (Option (List Char))) := do
  let chars := text.toList
  let (skipped, reading) ← scheme.firstReading? chars
  let found := chars.drop skipped
  let length := found.length - reading.rest.length
  return ({
    before := String.ofList (chars.take skipped)
    core := String.ofList (found.take length)
    after := String.ofList reading.rest }, reading.captures)

theorem Scheme.find?_eq_map_search? (scheme : Scheme) (text : String) :
    scheme.find? text = (scheme.search? text).map Prod.fst := by
  unfold find? search?
  change (scheme.firstReading? text.toList >>= _) =
    (scheme.firstReading? text.toList >>= _).map Prod.fst
  cases scheme.firstReading? text.toList with
  | none => rfl
  | some found => rfl

theorem Scheme.search?_eq_some {scheme : Scheme} {text : String}
    {before consumed : List Char} {reading : Reading}
    (split : text.toList = before ++ (consumed ++ reading.rest))
    (read : scheme.whole.readThen readRest (consumed ++ reading.rest) = some reading)
    (first : ∀ skipped more, before = skipped ++ more → more ≠ [] →
      scheme.whole.readThen readRest (more ++ (consumed ++ reading.rest)) = none) :
    scheme.search? text =
      some ({
        before := String.ofList before
        core := String.ofList consumed
        after := String.ofList reading.rest }, reading.captures) := by
  have search := findSome?_tails read first 0
  rw [Nat.zero_add] at search
  unfold search? firstReading?
  simp only [Scheme.rows_eq, split]
  rw [search]
  simp

theorem Scheme.search?_eq_none {scheme : Scheme} {text : String}
    (nowhere : ∀ skipped found, text.toList = skipped ++ found →
      scheme.whole.readThen readRest found = none) :
    scheme.search? text = none := by
  have unread : scheme.firstReading? text.toList = none := by
    rw [firstReading?, Scheme.rows_eq, findSome?_tails_eq_none nowhere]
  change (scheme.firstReading? text.toList >>= _) = none
  rw [unread]
  rfl

theorem Scheme.find?_eq_some {scheme : Scheme} {text : String}
    {before consumed : List Char} {reading : Reading}
    (split : text.toList = before ++ (consumed ++ reading.rest))
    (read : scheme.whole.readThen readRest (consumed ++ reading.rest) = some reading)
    (first : ∀ skipped more, before = skipped ++ more → more ≠ [] →
      scheme.whole.readThen readRest (more ++ (consumed ++ reading.rest)) = none) :
    scheme.find? text =
      some {
        before := String.ofList before
        core := String.ofList consumed
        after := String.ofList reading.rest } := by
  rw [find?_eq_map_search?, search?_eq_some split read first]
  rfl

/-- What is found is a part of the text. -/
theorem Scheme.text_of_find? {scheme : Scheme} {text : String} {found : Occurrence}
    (searched : scheme.find? text = some found) : found.text = text := by
  rcases first_answer_cases (scheme.whole.readThen readRest) text.toList with
    nowhere | ⟨before, others, reading, split, read, first⟩
  · rw [find?_eq_map_search?, search?_eq_none nowhere] at searched
    cases searched
  · have best := scheme.isBest_readFront others
    rw [read] at best
    obtain ⟨choice, reads, _⟩ := best
    obtain ⟨consumed, _, rfl, _⟩ := derives_of_reads_rest reads
    rw [find?_eq_some split read first] at searched
    cases searched
    apply String.toList_inj.mp
    rw [split]
    simp [Occurrence.text]

end Versioning
