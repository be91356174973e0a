import Versioning.Proofs.Scheme.Leftmost
import Versioning.Proofs.Version.Literal

/-!
How far a search reads.

A search takes a group as soon as it can, which may keep it from a longer version that
leaves the group out. This cannot happen in a scheme whose groups start with
separators that nothing else in their place can start with, nor in a last row of groups
of one field each. There the first version in a text is also the longest one that
starts there, and a whole version is found whole.
-/

namespace Versioning

namespace Body

/-! ### What a body starts with -/

/-- The separators that can come first in what a body derives, and in what follows it
if the body derives nothing. -/
def starts (following : List String) : Body → List String
  | .done => following
  | .field separator _ _ => [separator]
  | .group inner rest => inner.starts (rest.starts following) ++ rest.starts following

def flat : Body → Bool
  | .done => true
  | .group (.field _ _ .done) rest => rest.flat
  | _ => false

/-- Each group either starts with separators that cannot come where it is left out, or
belongs to a last row of groups of one field each. -/
def apart (following : List String) : Body → Bool
  | .done => true
  | .field _ _ rest => rest.apart following
  | .group inner rest =>
      (following.isEmpty && (Body.group inner rest).flat) ||
        ((inner.starts []).all (fun separator => ! (rest.starts following).contains separator) &&
          inner.apart (rest.starts following) && rest.apart following)

private theorem apart_of_flat {body : Body} (row : body.flat = true) : body.apart [] = true := by
  cases body with
  | done => rfl
  | field separator name rest => cases row
  | group inner rest => simp [apart, row]

private theorem exists_field_of_flat {inner rest : Body}
    (row : (Body.group inner rest).flat = true) :
    ∃ separator name, inner = .field separator name .done ∧ rest.flat = true := by
  cases inner with
  | done => cases row
  | group _ _ => cases row
  | field separator name others =>
      cases others with
      | done => exact ⟨separator, name, rfl, row⟩
      | field _ _ _ => cases row
      | group _ _ => cases row

private theorem apart_of_group {inner rest : Body} {following : List String}
    (apart : (Body.group inner rest).apart following = true) :
    inner.apart (rest.starts following) = true ∧ rest.apart following = true ∧
      ((∀ separator ∈ inner.starts [], separator ∉ rest.starts following) ∨
        (following = [] ∧ (Body.group inner rest).flat = true)) := by
  rw [Body.apart, Bool.or_eq_true] at apart
  rcases apart with last | different
  · obtain ⟨empty, row⟩ := Bool.and_eq_true_iff.mp last
    have none := List.isEmpty_iff.mp empty
    obtain ⟨separator, name, rfl, others⟩ := exists_field_of_flat row
    subst none
    exact ⟨rfl, apart_of_flat others, .inr ⟨rfl, row⟩⟩
  · obtain ⟨innerApart, restApart⟩ := Bool.and_eq_true_iff.mp different
    obtain ⟨differ, innerApart⟩ := Bool.and_eq_true_iff.mp innerApart
    refine ⟨innerApart, restApart, .inl ?_⟩
    intro separator member known
    have unknown := List.all_eq_true.mp differ separator member
    rw [List.contains_iff_mem.mpr known] at unknown
    cases unknown

end Body

def OpensWith (separators : List String) (text : List Char) : Prop :=
  ∃ separator ∈ separators, IsSeparator separator ∧ ∃ digits rest,
    IsRun Char.isDigit digits ∧ text = separator.toList ++ (digits ++ rest)

private theorem OpensWith.mono {separators others : List String} {text : List Char}
    (opens : OpensWith separators text) (inside : separators ⊆ others) :
    OpensWith others text := by
  obtain ⟨separator, member, parts⟩ := opens
  exact ⟨separator, inside member, parts⟩

private theorem OpensWith.append {separators : List String} {text : List Char}
    (opens : OpensWith separators text) (more : List Char) :
    OpensWith separators (text ++ more) := by
  obtain ⟨separator, member, isSeparator, digits, rest, isRun, rfl⟩ := opens
  refine ⟨separator, member, isSeparator, digits, rest ++ more, isRun, ?_⟩
  simp

/-- A text opens with one separator only. -/
private theorem OpensWith.exists_common {separators others : List String} {text : List Char}
    (opens : OpensWith separators text) (otherOpens : OpensWith others text) :
    ∃ separator ∈ separators, separator ∈ others := by
  obtain ⟨separator, member, isSeparator, digits, rest, isRun, rfl⟩ := opens
  obtain ⟨other, otherMember, isOther, otherDigits, otherRest, isOtherRun, same⟩ := otherOpens
  have marks := (marks_append_inj isSeparator.2 isOther.2 isRun isOtherRun same).1
  have separatorEq : separator = other := String.toList_inj.mp marks
  subst separatorEq
  exact ⟨separator, member, otherMember⟩

def TakesAfter (separators : List String)
    (possible : List Char → List Bool → Reading → Prop) : Prop :=
  ∀ text choice reading, possible text choice reading →
    reading.rest.length ≤ text.length ∧
      (reading.rest.length < text.length → OpensWith separators text)

private theorem takesAfter_readsRest : TakesAfter [] ReadsRest := by
  intro text choice reading reads
  obtain ⟨_, rfl⟩ := reads
  exact ⟨Nat.le_refl _, fun less => absurd less (Nat.lt_irrefl _)⟩

private theorem takesAfter_readsEnd : TakesAfter [] ReadsEnd := by
  intro text choice reading reads
  obtain ⟨rfl, _, rfl⟩ := reads
  exact ⟨Nat.le_refl _, fun less => absurd less (Nat.lt_irrefl _)⟩

theorem Body.WellFormed.takesAfter {body : Body} (formed : body.WellFormed)
    {following : List String} {possible : List Char → List Bool → Reading → Prop}
    (takes : TakesAfter following possible) :
    TakesAfter (body.starts following) (body.Reads possible) := by
  induction formed generalizing following possible with
  | done => exact takes
  | @field separator name rest isSeparator isName formedRest ih =>
      intro text choice reading reads
      obtain ⟨digits, others, after, rfl, isRun, _, reads, rfl⟩ := reads
      have bound := (ih takes others choice after reads).1
      constructor
      · simp only [Reading.capture, List.length_append]
        omega
      · intro less
        exact ⟨separator, List.mem_singleton_self separator, isSeparator, digits, others,
          isRun, rfl⟩
  | group holding formedInner formedRest ihInner ihRest =>
      intro text choice reading reads
      rcases reads with ⟨later, _, reads⟩ | ⟨later, after, _, reads, rfl⟩
      · have bounds := ihInner (ihRest takes) text later reading reads
        refine ⟨bounds.1, fun less => ?_⟩
        exact (bounds.2 less).mono (List.subset_append_left ..)
      · have bounds := ihRest takes text later after reads
        refine ⟨bounds.1, fun less => ?_⟩
        exact (bounds.2 less).mono (List.subset_append_right ..)

private theorem Body.Derives.opensWith {body : Body} {choice : List Bool}
    {captures : List (Option (List Char))} {text : List Char}
    (derivation : body.Derives choice captures text) (formed : body.WellFormed)
    (filled : text ≠ []) : OpensWith (body.starts []) text := by
  have atEnd : ReadsEnd [] [] { captures := [], rest := [] } := ⟨rfl, rfl, rfl⟩
  have reads := derivation.reads formed (show startsWithDigit [] = false from rfl) atEnd
  rw [List.append_nil] at reads
  exact (formed.takesAfter takesAfter_readsEnd text _ _ reads).2
    (List.length_pos_iff.mpr filled)

/-- Either a text opens with what a body starts with, or the body reads nothing in it
and can do so in front of whatever is read next. -/
private theorem Body.Reads.opensWith_or_again {body : Body} (formed : body.WellFormed)
    {next : List Char → List Bool → Reading → Prop} {text : List Char}
    (noDigit : startsWithDigit text = false) {choice : List Bool} {reading : Reading}
    (reads : body.Reads next text choice reading) :
    OpensWith (body.starts []) text ∨
      ∀ later after, next text later after →
        ∃ other otherReading, body.Reads next text other otherReading ∧
          otherReading.rest = after.rest := by
  obtain ⟨own, captures, consumed, _, following, _, derivation, rfl, _⟩ := reads.derives
  cases consumed with
  | cons c consumed =>
      left
      exact (derivation.opensWith formed (List.cons_ne_nil c consumed)).append following
  | nil =>
      right
      intro later after readsNext
      exact ⟨_, _, derivation.reads formed noDigit readsNext, rfl⟩

/-! ### The longest reading -/

private theorem readThen_field_append (next : List Char → Option Reading) (separator name : String)
    (rest : Body) {digits later : List Char} (isRun : IsRun Char.isDigit digits)
    (ended : startsWithDigit later = false) :
    (Body.field separator name rest).readThen next
        (separator.toList ++ (digits ++ later)) =
      (rest.readThen next later).map (·.capture digits) := by
  rw [Body.readThen, afterSeparator?_append]
  exact readDigits_append _ isRun ended

/-- In a row of groups of one field each, the group that read the first segment can be
left out. -/
private theorem Body.Reads.without_first {body : Body} (formed : body.WellFormed)
    (row : body.flat = true) {possible : List Char → List Bool → Reading → Prop}
    (takes : TakesAfter [] possible) {marks digits later : List Char}
    (areMarks : ∀ c ∈ marks, isMarkChar c = true) (isRun : IsRun Char.isDigit digits)
    (ended : startsWithDigit later = false) {choice : List Bool} {reading : Reading}
    (reads : body.Reads possible (marks ++ (digits ++ later)) choice reading)
    (taken : reading.rest.length < (marks ++ (digits ++ later)).length) :
    ∃ other otherReading, body.Reads possible later other otherReading ∧
      otherReading.rest = reading.rest := by
  induction formed generalizing choice reading with
  | done =>
      obtain ⟨separator, member, _⟩ := (takes _ _ _ reads).2 taken
      cases member
  | field isSeparator isName formedRest ih => cases row
  | group holding formedInner formedRest ihInner ihRest =>
      obtain ⟨separator, name, rfl, others⟩ := Body.exists_field_of_flat row
      rcases reads with ⟨flags, _, reads⟩ | ⟨flags, after, _, reads, rfl⟩
      · obtain ⟨otherDigits, following, after, same, isOtherRun, otherEnded, reads, rfl⟩ := reads
        cases formedInner with
        | field isSeparator isName formedNone =>
            have runs := (marks_append_inj areMarks isSeparator.2 isRun isOtherRun same).2
            obtain ⟨_, rfl⟩ := digits_append_inj isRun isOtherRun ended otherEnded runs
            exact ⟨_, _, .inr ⟨flags, after, rfl, reads, rfl⟩, rfl⟩
      · obtain ⟨other, otherReading, otherReads, same⟩ := ihRest others reads taken
        exact ⟨_, _, .inr ⟨other, otherReading, rfl, otherReads, rfl⟩, same⟩

def ReadsLongest (next : List Char → Option Reading)
    (possible : List Char → List Bool → Reading → Prop) : Prop :=
  ∀ text choice reading other, startsWithDigit text = false →
    next text = some reading → possible text choice other →
      reading.rest.length ≤ other.rest.length

/-- In a last row of groups of one field each, including the first one leaves no more of
the text than leaving it out does. -/
private theorem Body.WellFormed.first_of_row {inner rest : Body} (formed : inner.WellFormed)
    (formedRest : rest.WellFormed) (row : (Body.group inner rest).flat = true)
    {next : List Char → Option Reading}
    {possible : List Char → List Bool → Reading → Prop} (takes : TakesAfter [] possible)
    (longest : ReadsLongest (rest.readThen next) (rest.Reads possible)) {text : List Char}
    {choice other : List Bool} {front back : Reading}
    (read : inner.readThen (rest.readThen next) text = some front)
    (reads : inner.Reads (rest.Reads possible) text choice front)
    (readsOut : rest.Reads possible text other back)
    (taken : back.rest.length < text.length) : front.rest.length ≤ back.rest.length := by
  obtain ⟨separator, name, rfl, others⟩ := Body.exists_field_of_flat row
  cases formed with
  | field isSeparator isName formedNone =>
      obtain ⟨digits, later, _, rfl, isRun, ended, _, _⟩ := reads
      rw [readThen_field_append _ separator name _ isRun ended] at read
      obtain ⟨after, readRest, rfl⟩ := Option.map_eq_some_iff.mp read
      -- The groups behind the first one can do without it, since it read one segment only.
      obtain ⟨again, longer, readsAgain, same⟩ :=
        readsOut.without_first formedRest others takes isSeparator.2 isRun ended taken
      rw [← same]
      exact longest later again after longer ended readRest readsAgain

/-- If what is read behind a body is as long as can be, so is what is read from the body
on. -/
theorem Body.WellFormed.readsLongest {body : Body} (formed : body.WellFormed)
    {following : List String} (apart : body.apart following = true)
    {next : List Char → Option Reading}
    {possible : List Char → List Bool → Reading → Prop}
    (takes : TakesAfter following possible)
    (best : ∀ text, IsBest (possible text) (next text)) (longest : ReadsLongest next possible) :
    ReadsLongest (body.readThen next) (body.Reads possible) := by
  induction formed generalizing following next possible with
  | done => exact longest
  | @field separator name rest isSeparator isName formedRest ih =>
      intro text choice reading other noDigit read reads
      obtain ⟨digits, later, after, rfl, isRun, ended, reads, rfl⟩ := reads
      rw [readThen_field_append next separator name rest isRun ended] at read
      obtain ⟨front, readFront, rfl⟩ := Option.map_eq_some_iff.mp read
      exact ih apart takes best longest later choice front after ended readFront reads
  | @group inner rest holding formedInner formedRest ihInner ihRest =>
      obtain ⟨innerApart, restApart, differ⟩ := Body.apart_of_group apart
      have takesRest := formedRest.takesAfter takes
      have bestRest := rest.isBest_readThen next possible best
      have longestRest := ihRest restApart takes best longest
      have longestInner := ihInner innerApart takesRest bestRest longestRest
      intro text choice reading other noDigit read reads
      have bestInner := inner.isBest_readThen _ _ bestRest text
      rw [Body.readThen] at read
      cases readInner : inner.readThen (rest.readThen next) text with
      | none =>
          rw [readInner] at read bestInner
          obtain ⟨after, readRest, rfl⟩ := Option.map_eq_some_iff.mp read
          rcases reads with ⟨flags, _, reads⟩ | ⟨flags, other, _, reads, rfl⟩
          · exact absurd reads (bestInner flags _)
          · exact longestRest text flags after other noDigit readRest reads
      | some front =>
          rw [readInner] at read bestInner
          have same : front = reading := Option.some.inj read
          subst same
          obtain ⟨chosen, readsInner, _⟩ := bestInner
          rcases reads with ⟨flags, _, reads⟩ | ⟨flags, other, _, reads, rfl⟩
          · exact longestInner text flags front other noDigit readInner reads
          -- The other reading leaves out a group that was included. If it takes anything, it
          -- starts with a separator from behind the group.
          · have bounds := takesRest text flags other reads
            by_cases taken : other.rest.length < text.length
            · rcases differ with different | ⟨none, row⟩
              · rcases readsInner.opensWith_or_again formedInner noDigit with opens | again
                · obtain ⟨separator, starts, known⟩ := opens.exists_common (bounds.2 taken)
                  exact absurd known (different separator starts)
                · obtain ⟨again, longer, reads, same⟩ := again flags other reads
                  have bound := longestInner text again front longer noDigit readInner reads
                  rwa [same] at bound
              · subst none
                have bound := formedInner.first_of_row formedRest row takes longestRest readInner
                  readsInner reads taken
                exact bound
            · have bound := (formedInner.takesAfter takesRest text chosen front readsInner).1
              exact Nat.le_trans bound (Nat.not_lt.mp taken)

/-! ### The longest version -/

namespace Scheme

def FindsLongest (scheme : Scheme) : Prop :=
  ∀ text found, scheme.find? text = some found →
    ∀ core after, found.before ++ core ++ after = text → scheme.Conforms core →
      core.utf8ByteSize ≤ found.core.utf8ByteSize

/-- A text that is accepted as a version is also what a search finds in it. -/
def FindsLiterals (scheme : Scheme) : Prop :=
  ∀ literal version, Version.ofLiteral scheme literal = .ok version →
    scheme.find? literal = some { before := "", core := literal, after := "" }

private theorem WellFormed.length_le_of_greedy {scheme : Scheme} (formed : scheme.WellFormed)
    (apart : scheme.body.apart [] = true) {choice other : List Bool}
    {captures others : List (Option (List Char))} {core after otherCore otherAfter : List Char}
    (greedy : scheme.Greedy choice captures core after)
    (derivation : scheme.whole.Derives other others otherCore)
    (same : core ++ after = otherCore ++ otherAfter) : otherCore.length ≤ core.length := by
  obtain ⟨longer, more, rest, rfl, ended, fullDerivation⟩ := derives_full derivation otherAfter
  have read := formed.readThen_of_greedy greedy
  have reads := formed.reads_rest fullDerivation ended
  rw [List.append_assoc, ← same] at reads
  obtain ⟨digits, later, reading, split, isRun, laterEnded, readsBody, readingEq⟩ := reads
  rw [split, whole, readThen_field_append readRest "" scheme.lead scheme.body isRun laterEnded]
    at read
  obtain ⟨front, readBody, frontEq⟩ := Option.map_eq_some_iff.mp read
  have longest : ReadsLongest readRest ReadsRest := by
    intro text choice reading other _ read reads
    cases read
    obtain ⟨_, rfl⟩ := reads
    exact Nat.le_refl _
  have bound := formed.body.readsLongest apart takesAfter_readsRest isBest_readRest longest
    later other front reading laterEnded readBody readsBody
  have frontRest : front.rest = after := congrArg Reading.rest frontEq
  have otherRest : reading.rest = rest := (congrArg Reading.rest readingEq).symm
  have lengths := congrArg List.length same
  rw [frontRest, otherRest] at bound
  simp only [List.length_append] at lengths
  omega

theorem WellFormed.findsLongest {scheme : Scheme} (formed : scheme.WellFormed)
    (apart : scheme.body.apart [] = true) : scheme.FindsLongest := by
  intro text found searched core after whole conforms
  obtain ⟨choice, captures, finds⟩ := (formed.find?_eq_some_iff text found).mp searched
  obtain ⟨other, others, derivation⟩ := conforms
  have split : found.core.toList ++ found.after.toList = core.toList ++ after.toList := by
    have characters := congrArg String.toList (finds.here.trans whole.symm)
    rw [found.toList_text, String.toList_append, String.toList_append, List.append_assoc]
      at characters
    exact List.append_cancel_left characters
  have bound := formed.length_le_of_greedy apart finds.greedy derivation split
  apply utf8ByteSize_le_of_prefix
  apply List.prefix_of_prefix_length_le ⟨after.toList, rfl⟩ ?_ bound
  exact ⟨found.after.toList, split⟩

private theorem WellFormed.conforms_of_ofLiteral {scheme : Scheme} (formed : scheme.WellFormed)
    {literal : String} {version : Version}
    (accepted : Version.ofLiteral scheme literal = .ok version) : scheme.Conforms literal := by
  cases read : scheme.readWhole? literal.toList with
  | none =>
      rw [(Version.ofLiteral_eq_noMatch_iff scheme literal).mpr read] at accepted
      cases accepted
  | some captures =>
      obtain ⟨choice, derivation, _⟩ := formed.chosen_of_readWhole? read
      exact ⟨choice, captures, derivation⟩

/-- A text that is a version as a whole is found from its first byte on. -/
private theorem WellFormed.exists_find?_of_conforms {scheme : Scheme} (formed : scheme.WellFormed)
    {literal : String} (conforms : scheme.Conforms literal) :
    ∃ found, scheme.find? literal = some found ∧ found.before = "" ∧
      found.core ++ found.after = literal := by
  have whole : "" ++ literal ++ "" = literal := by simp
  cases searched : scheme.find? literal with
  | none =>
      have nowhere := (formed.find?_eq_none_iff literal).mp searched
      exact absurd ⟨"", literal, "", whole, conforms⟩ nowhere
  | some found =>
      obtain ⟨choice, captures, finds⟩ := (formed.find?_eq_some_iff literal found).mp searched
      have start := finds.first "" literal "" whole conforms
      have empty : found.before = "" :=
        String.utf8ByteSize_eq_zero_iff.mp (Nat.le_zero.mp start)
      refine ⟨found, rfl, empty, ?_⟩
      have here := finds.here
      rw [Occurrence.text, empty, String.empty_append] at here
      exact here

theorem WellFormed.findsLiterals {scheme : Scheme} (formed : scheme.WellFormed)
    (longest : scheme.FindsLongest) : scheme.FindsLiterals := by
  intro literal version accepted
  have conforms := formed.conforms_of_ofLiteral accepted
  obtain ⟨found, searched, empty, split⟩ := formed.exists_find?_of_conforms conforms
  have whole : found.before ++ literal ++ "" = literal := by simp [empty]
  have bound := longest literal found searched literal "" whole conforms
  rw [← split, String.utf8ByteSize_append] at bound
  have nothing : found.after = "" := by
    apply String.utf8ByteSize_eq_zero_iff.mp
    omega
  rw [nothing, String.append_empty] at split
  obtain ⟨before, core, after⟩ := found
  cases empty
  cases nothing
  cases split
  exact searched

/-- A version that is accepted as a whole is found from its first byte on. If the groups
of a scheme are apart, what is found is never shorter than another version that starts
at the same place, and so an accepted version is found as a whole. -/
theorem find?_longest {definition : String} {scheme : Scheme}
    (compiled : Scheme.compile definition = .ok scheme) :
    (∀ literal version, Version.ofLiteral scheme literal = .ok version →
      ∃ found, scheme.find? literal = some found ∧ found.before = "" ∧
        found.core ++ found.after = literal) ∧
    (scheme.body.apart [] = true → scheme.FindsLongest ∧ scheme.FindsLiterals) := by
  have formed := wellFormed_of_compile compiled
  constructor
  · intro literal version accepted
    exact formed.exists_find?_of_conforms (formed.conforms_of_ofLiteral accepted)
  · intro apart
    have longest := formed.findsLongest apart
    exact ⟨longest, formed.findsLiterals longest⟩

/-- The two groups of a version with four numbers start with the same separator, but
each of them has one field and nothing follows them. -/
theorem find?_longest_four_numbers :
    Scheme.compile "major.minor[.build][.commit]" =
      .ok ⟨"major", .field "." "minor" (.group (.field "." "build" .done)
        (.group (.field "." "commit" .done) .done))⟩ ∧
    Scheme.FindsLongest ⟨"major", .field "." "minor" (.group (.field "." "build" .done)
      (.group (.field "." "commit" .done) .done))⟩ := by
  have compiled : Scheme.compile "major.minor[.build][.commit]" =
      .ok ⟨"major", .field "." "minor" (.group (.field "." "build" .done)
        (.group (.field "." "commit" .done) .done))⟩ := by rfl
  exact ⟨compiled, ((find?_longest compiled).2 (by decide)).1⟩

/-- The group that comes first takes the digits behind the point and nothing can follow
it, although the second group would read on to the end. -/
theorem find?_not_longest :
    Scheme.compile "a[.b][.c[-d]]" =
      .ok ⟨"a", .group (.field "." "b" .done)
        (.group (.field "." "c" (.group (.field "-" "d" .done) .done)) .done)⟩ ∧
    ¬ Scheme.FindsLongest ⟨"a", .group (.field "." "b" .done)
      (.group (.field "." "c" (.group (.field "-" "d" .done) .done)) .done)⟩ ∧
    ¬ Scheme.FindsLiterals ⟨"a", .group (.field "." "b" .done)
      (.group (.field "." "c" (.group (.field "-" "d" .done) .done)) .done)⟩ := by
  have compiled : Scheme.compile "a[.b][.c[-d]]" =
      .ok ⟨"a", .group (.field "." "b" .done)
        (.group (.field "." "c" (.group (.field "-" "d" .done) .done)) .done)⟩ := by rfl
  have formed := wellFormed_of_compile compiled
  have searched : Scheme.find? ⟨"a", .group (.field "." "b" .done)
      (.group (.field "." "c" (.group (.field "-" "d" .done) .done)) .done)⟩ "1.2-3" =
        some { before := "", core := "1.2", after := "-3" } := by rfl
  have accepted : Version.ofLiteral ⟨"a", .group (.field "." "b" .done)
      (.group (.field "." "c" (.group (.field "-" "d" .done) .done)) .done)⟩ "1.2-3" =
        .ok (Version.ofPairs [("a", 1), ("b", 0), ("c", 2), ("d", 3)]) := by rfl
  refine ⟨compiled, ?_, ?_⟩
  · intro longest
    have bound := longest "1.2-3" _ searched "1.2-3" "" (by rfl)
      (formed.conforms_of_ofLiteral accepted)
    revert bound
    decide
  · intro literals
    have whole := literals "1.2-3" _ accepted
    rw [searched] at whole
    revert whole
    decide

end Scheme

end Versioning
