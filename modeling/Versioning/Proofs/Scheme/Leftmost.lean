import Versioning.Proofs.Scheme.Searching
import Versioning.Proofs.Scheme.Segments

/-!
The first version in a text.

A search comes back with nothing only where there is nothing to find. What it finds
starts before every other version in the text. Of all ways to read the text from
there, it takes the one whose runs of digits are as long as they can be and which
includes a group at the first bracket where another way differs from it.
-/

namespace Versioning

/-! ### Longer runs of digits -/

/-- Digits behind a derived text can be added to its last run. -/
private theorem Body.Derives.lengthen {body : Body} {choice : List Bool}
    {captures : List (Option (List Char))} {text : List Char}
    (derivation : body.Derives choice captures text) {more : List Char}
    (digits : ∀ c ∈ more, c.isDigit = true) :
    text = [] ∨ ∃ longer, body.Derives choice longer (text ++ more) := by
  -- The last run lies in what comes last, unless that derives nothing.
  induction derivation with
  | done => exact .inl rfl
  | @field separator name rest run choice captures text isRun derivation ih =>
      right
      rcases ih with empty | ⟨longer, derivation⟩
      · subst empty
        have isLonger : IsRun Char.isDigit (run ++ more) := by
          constructor
          · exact List.append_ne_nil_of_left_ne_nil isRun.1 more
          · exact List.forall_mem_append.mpr ⟨isRun.2, digits⟩
        have whole : Body.Derives (.field separator name rest) choice
            (some (run ++ more) :: captures)
            (separator.toList ++ ((run ++ more) ++ [])) :=
          .field isLonger derivation
        refine ⟨some (run ++ more) :: captures, ?_⟩
        simpa using whole
      · have whole : Body.Derives (.field separator name rest) choice (some run :: longer)
            (separator.toList ++ (run ++ (text ++ more))) :=
          .field isRun derivation
        refine ⟨some run :: longer, ?_⟩
        simpa using whole
  | included derivationInner derivation ihInner ih =>
      rcases ih with empty | ⟨longer, longerRest⟩
      · subst empty
        rcases ihInner with emptyInner | ⟨longer, longerInner⟩
        · left
          rw [emptyInner, List.append_nil]
        · right
          have whole := longerInner.included derivation
          rw [List.append_nil] at whole
          rw [List.append_nil]
          exact ⟨_, whole⟩
      · right
        rw [List.append_assoc]
        exact ⟨_, derivationInner.included longerRest⟩
  | leftOut derivation ih =>
      rcases ih with empty | ⟨longer, longerRest⟩
      · exact .inl empty
      · exact .inr ⟨_, longerRest.leftOut⟩

namespace Scheme

/-- A version at the start of a text goes on to where no digit follows. -/
theorem derives_full {scheme : Scheme} {choice : List Bool}
    {captures : List (Option (List Char))} {core : List Char}
    (derivation : scheme.whole.Derives choice captures core) (after : List Char) :
    ∃ longer more rest, after = more ++ rest ∧ startsWithDigit rest = false ∧
      scheme.whole.Derives choice longer (core ++ more) := by
  have digits : ∀ c ∈ after.takeWhile Char.isDigit, c.isDigit = true :=
    fun c member => List.all_eq_true.mp List.all_takeWhile c member
  rcases derivation.lengthen digits with empty | ⟨longer, longerDerivation⟩
  · cases derivation with
    | field isRun derivation => simp [isRun.1] at empty
  · exact ⟨longer, after.takeWhile Char.isDigit, after.dropWhile Char.isDigit,
      List.takeWhile_append_dropWhile.symm, startsWithDigit_dropWhile after,
      longerDerivation⟩

/-! ### The preferred way to read -/

def Conforms (scheme : Scheme) (literal : String) : Prop :=
  ∃ choice captures, scheme.whole.Derives choice captures literal.toList

/-- No run of digits goes on behind its last one, when `after` stands behind what the
captures were taken from. -/
def FullRuns (scheme : Scheme) (captures : List (Option (List Char))) (after : List Char) :
    Prop :=
  ∀ front part back,
    segments (Piece.labels scheme.whole.pieces) captures = front ++ part :: back →
      startsWithDigit (segmentsText back ++ after) = false

/-- Of all ways to read the start of the text `core ++ after`, this one reads `core`,
has the longest runs of digits, and includes a group at the first bracket where
another way differs from it. -/
structure Greedy (scheme : Scheme) (choice : List Bool)
    (captures : List (Option (List Char))) (core after : List Char) : Prop where
  derives : scheme.whole.Derives choice captures core
  full : scheme.FullRuns captures after
  preferred : ∀ other otherCaptures otherCore otherAfter,
    core ++ after = otherCore ++ otherAfter →
      scheme.whole.Derives other otherCaptures otherCore → Prefers choice other

private theorem segments_whole (scheme : Scheme) (digits : List Char)
    (captures : List (Option (List Char))) :
    segments (Piece.labels scheme.whole.pieces) (some digits :: captures) =
      ([], digits) :: segments (Piece.labels scheme.body.pieces) captures :=
  rfl

/-- Only the last run can go on, since every separator ends the run before it. -/
theorem WellFormed.fullRuns_iff {scheme : Scheme} (formed : scheme.WellFormed)
    {choice : List Bool} {captures : List (Option (List Char))} {core after : List Char}
    (derivation : scheme.whole.Derives choice captures core) :
    scheme.FullRuns captures after ↔ startsWithDigit after = false := by
  cases derivation with
  | @field _ _ _ digits choice captures text isRun derivation =>
      unfold FullRuns
      rw [segments_whole]
      constructor
      · intro full
        exact full _ _ [] (List.dropLast_concat_getLast (List.cons_ne_nil _ _)).symm
      · intro ended front part back parts
        apply startsWithDigit_segmentsText back _ ended
        intro later member
        apply derivation.isSegment formed.body
        cases front with
        | nil =>
            rw [(List.cons.inj parts).2]
            exact member
        | cons first front =>
            rw [(List.cons.inj parts).2]
            simp [member]

theorem readsRest_unique : ∀ text choice reading other,
    ReadsRest text choice reading → ReadsRest text choice other → reading = other := by
  rintro text choice reading other ⟨_, rfl⟩ ⟨_, rfl⟩
  rfl

/-- A text has no reading exactly when no version starts it. -/
theorem WellFormed.readThen_eq_none_iff {scheme : Scheme} (formed : scheme.WellFormed)
    (text : List Char) :
    scheme.whole.readThen readRest text = none ↔
      ∀ core after, text = core ++ after →
        ¬ ∃ choice captures, scheme.whole.Derives choice captures core := by
  have best := scheme.isBest_readFront text
  constructor
  · intro unread core after split derivable
    obtain ⟨choice, captures, derivation⟩ := derivable
    obtain ⟨longer, more, rest, rfl, ended, fullDerivation⟩ := derives_full derivation after
    rw [unread, split, ← List.append_assoc] at best
    exact best choice _ (formed.reads_rest fullDerivation ended)
  · intro underivable
    cases read : scheme.whole.readThen readRest text with
    | none => rfl
    | some reading =>
        rw [read] at best
        obtain ⟨choice, reads, _⟩ := best
        obtain ⟨consumed, derivation, split, _⟩ := derives_of_reads_rest reads
        exact absurd ⟨choice, _, derivation⟩ (underivable consumed _ split)

theorem WellFormed.greedy_of_readThen {scheme : Scheme} (formed : scheme.WellFormed)
    {text : List Char} {reading : Reading}
    (read : scheme.whole.readThen readRest text = some reading) :
    ∃ choice core, text = core ++ reading.rest ∧
      scheme.Greedy choice reading.captures core reading.rest := by
  have best := scheme.isBest_readFront text
  rw [read] at best
  obtain ⟨choice, reads, preferred⟩ := best
  obtain ⟨core, derivation, split, ended⟩ := derives_of_reads_rest reads
  refine ⟨choice, core, split, derivation, (formed.fullRuns_iff derivation).mpr ended, ?_⟩
  intro other otherCaptures otherCore otherAfter same otherDerivation
  obtain ⟨longer, more, rest, rfl, otherEnded, fullDerivation⟩ :=
    derives_full otherDerivation otherAfter
  have otherReads := formed.reads_rest fullDerivation otherEnded
  rw [List.append_assoc, ← same, ← split] at otherReads
  exact preferred other _ otherReads

theorem WellFormed.readThen_of_greedy {scheme : Scheme} (formed : scheme.WellFormed)
    {choice : List Bool} {captures : List (Option (List Char))} {core after : List Char}
    (greedy : scheme.Greedy choice captures core after) :
    scheme.whole.readThen readRest (core ++ after) = some { captures, rest := after } := by
  have ended := (formed.fullRuns_iff greedy.derives).mp greedy.full
  have reads := formed.reads_rest greedy.derives ended
  have best := scheme.isBest_readFront (core ++ after)
  cases read : scheme.whole.readThen readRest (core ++ after) with
  | none =>
      rw [read] at best
      exact absurd reads (best choice _)
  | some reading =>
      rw [read] at best
      obtain ⟨other, otherReads, preferred⟩ := best
      obtain ⟨otherCore, derivation, split, _⟩ := derives_of_reads_rest otherReads
      have same : choice = other :=
        (greedy.preferred other _ otherCore _ split derivation).antisymm
          (preferred choice _ reads)
      subst same
      rw [otherReads.unique readsRest_unique reads]

/-! ### The first place -/

/-- What was found is a part of the text, no version starts before it, and it was read
from its start in the greedy way. -/
structure FindsFirst (scheme : Scheme) (text : String) (found : Occurrence)
    (choice : List Bool) (captures : List (Option (List Char))) : Prop where
  here : found.text = text
  first : ∀ before core after, before ++ core ++ after = text → scheme.Conforms core →
    found.start ≤ before.utf8ByteSize
  greedy : scheme.Greedy choice captures found.core.toList found.after.toList

end Scheme

theorem Occurrence.toList_text (found : Occurrence) :
    found.text.toList =
      found.before.toList ++ (found.core.toList ++ found.after.toList) := by
  simp [Occurrence.text]

/-- In front of a version that starts first, nothing can be read. -/
theorem Scheme.FindsFirst.unread_before {scheme : Scheme} (formed : scheme.WellFormed)
    {text : String} {found : Occurrence} {choice : List Bool}
    {captures : List (Option (List Char))}
    (finds : scheme.FindsFirst text found choice captures) {skipped more : List Char}
    (split : found.before.toList = skipped ++ more) (filled : more ≠ []) :
    scheme.whole.readThen readRest
      (more ++ (found.core.toList ++ found.after.toList)) = none := by
  apply (formed.readThen_eq_none_iff _).mpr
  intro core after same derivable
  have whole : String.ofList skipped ++ String.ofList core ++ String.ofList after = text := by
    rw [← finds.here]
    apply String.toList_inj.mp
    rw [found.toList_text, split]
    simp [same]
  have conforms : scheme.Conforms (String.ofList core) := by
    unfold Scheme.Conforms
    rwa [String.toList_ofList]
  have bound := finds.first _ _ _ whole conforms
  have beforeEq : found.before = String.ofList skipped ++ String.ofList more := by
    apply String.toList_inj.mp
    simp [split]
  have positive : (String.ofList more).utf8ByteSize ≠ 0 := by
    intro none
    apply filled
    rw [← String.toList_ofList (l := more), String.utf8ByteSize_eq_zero_iff.mp none]
    rfl
  rw [Occurrence.start, beforeEq, String.utf8ByteSize_append] at bound
  omega

private theorem exists_append_of_prefix {before other : String}
    (starts : before.toList <+: other.toList) : ∃ more, other = before ++ more := by
  obtain ⟨more, same⟩ := starts
  refine ⟨String.ofList more, ?_⟩
  apply String.toList_inj.mp
  rw [String.toList_append, String.toList_ofList, same]

theorem utf8ByteSize_le_of_prefix {before other : String}
    (starts : before.toList <+: other.toList) :
    before.utf8ByteSize ≤ other.utf8ByteSize := by
  obtain ⟨more, rfl⟩ := exists_append_of_prefix starts
  rw [String.utf8ByteSize_append]
  omega

theorem eq_of_prefix_of_utf8ByteSize_le {before other : String}
    (starts : before.toList <+: other.toList)
    (size : other.utf8ByteSize ≤ before.utf8ByteSize) : before = other := by
  obtain ⟨more, rfl⟩ := exists_append_of_prefix starts
  rw [String.utf8ByteSize_append] at size
  have empty : more = "" := by
    apply String.utf8ByteSize_eq_zero_iff.mp
    omega
  rw [empty, String.append_empty]

namespace Scheme

private theorem WellFormed.search?_of_findsFirst {scheme : Scheme} (formed : scheme.WellFormed)
    {text : String} {found : Occurrence} {choice : List Bool}
    {captures : List (Option (List Char))}
    (finds : scheme.FindsFirst text found choice captures) :
    scheme.search? text = some (found, captures) := by
  have split : text.toList =
      found.before.toList ++ (found.core.toList ++ found.after.toList) := by
    rw [← finds.here, found.toList_text]
  have read := formed.readThen_of_greedy finds.greedy
  have search := @search?_eq_some scheme text found.before.toList found.core.toList
    { captures, rest := found.after.toList } split read
    (fun skipped more same filled => finds.unread_before formed same filled)
  simpa using search

/-- Where nothing is read in front of a place, no version starts before it. -/
private theorem WellFormed.prefix_of_unread {scheme : Scheme} (formed : scheme.WellFormed)
    {text before others otherBefore otherAfter : List Char} {core : String}
    (split : text = before ++ others)
    (unread : ∀ skipped more, before = skipped ++ more → more ≠ [] →
      scheme.whole.readThen readRest (more ++ others) = none)
    (conforms : scheme.Conforms core)
    (otherSplit : text = otherBefore ++ (core.toList ++ otherAfter)) :
    before <+: otherBefore := by
  have starts : before <+: text := ⟨_, split.symm⟩
  have otherStarts : otherBefore <+: text := ⟨_, otherSplit.symm⟩
  rcases List.prefix_or_prefix_of_prefix starts otherStarts with inside | around
  · exact inside
  · obtain ⟨more, rfl⟩ := around
    by_cases empty : more = []
    · simp [empty]
    · rw [split, List.append_assoc] at otherSplit
      have rest := List.append_cancel_left otherSplit
      have nothing := unread otherBefore more rfl empty
      exact absurd conforms
        ((formed.readThen_eq_none_iff _).mp nothing core.toList otherAfter rest)

theorem WellFormed.search?_cases {scheme : Scheme} (formed : scheme.WellFormed)
    (text : String) :
    (scheme.search? text = none ∧
      ∀ before core after, before ++ core ++ after = text → ¬ scheme.Conforms core) ∨
    ∃ found choice captures, scheme.search? text = some (found, captures) ∧
      scheme.FindsFirst text found choice captures := by
  rcases first_answer_cases (scheme.whole.readThen readRest) text.toList with
    nowhere | ⟨before, others, reading, split, read, first⟩
  · left
    refine ⟨search?_eq_none nowhere, ?_⟩
    intro before core after whole conforms
    have suffix : text.toList = before.toList ++ (core.toList ++ after.toList) := by
      simp [← whole]
    exact (formed.readThen_eq_none_iff _).mp (nowhere _ _ suffix) _ _ rfl conforms
  · right
    obtain ⟨choice, core, rfl, greedy⟩ := formed.greedy_of_readThen read
    refine ⟨_, choice, _, search?_eq_some split read first, ?_, ?_, ?_⟩
    · apply String.toList_inj.mp
      simp [Occurrence.text, split]
    · intro otherBefore otherCore otherAfter whole conforms
      have otherSplit : text.toList =
          otherBefore.toList ++ (otherCore.toList ++ otherAfter.toList) := by
        simp [← whole]
      apply utf8ByteSize_le_of_prefix
      rw [String.toList_ofList]
      exact formed.prefix_of_unread split first conforms otherSplit
    · simpa using greedy

theorem WellFormed.search?_eq_some_iff {scheme : Scheme} (formed : scheme.WellFormed)
    (text : String) (found : Occurrence) (captures : List (Option (List Char))) :
    scheme.search? text = some (found, captures) ↔
      ∃ choice, scheme.FindsFirst text found choice captures := by
  constructor
  · intro searched
    rcases formed.search?_cases text with ⟨none, _⟩ | ⟨other, choice, others, some, finds⟩
    · rw [searched] at none
      cases none
    · rw [searched] at some
      cases some
      exact ⟨choice, finds⟩
  · intro finds
    obtain ⟨choice, finds⟩ := finds
    exact formed.search?_of_findsFirst finds

theorem WellFormed.find?_eq_some_iff {scheme : Scheme} (formed : scheme.WellFormed)
    (text : String) (found : Occurrence) :
    scheme.find? text = some found ↔
      ∃ choice captures, scheme.FindsFirst text found choice captures := by
  rw [find?_eq_map_search?, Option.map_eq_some_iff]
  constructor
  · intro searched
    obtain ⟨⟨other, captures⟩, some, same⟩ := searched
    have foundEq : other = found := same
    subst foundEq
    obtain ⟨choice, finds⟩ := (formed.search?_eq_some_iff text other captures).mp some
    exact ⟨choice, captures, finds⟩
  · intro finds
    obtain ⟨choice, captures, finds⟩ := finds
    exact ⟨(found, captures), formed.search?_of_findsFirst finds, rfl⟩

theorem WellFormed.find?_eq_none_iff {scheme : Scheme} (formed : scheme.WellFormed)
    (text : String) :
    scheme.find? text = none ↔
      ¬ ∃ before core after, before ++ core ++ after = text ∧ scheme.Conforms core := by
  rw [find?_eq_map_search?, Option.map_eq_none_iff]
  constructor
  · intro none conforming
    obtain ⟨before, core, after, whole, conforms⟩ := conforming
    rcases formed.search?_cases text with ⟨_, nowhere⟩ | ⟨_, _, _, some, _⟩
    · exact nowhere before core after whole conforms
    · rw [none] at some
      cases some
  · intro nowhere
    rcases formed.search?_cases text with ⟨none, _⟩ | ⟨found, choice, captures, _, finds⟩
    · exact none
    · exact absurd ⟨found.before, found.core, found.after, finds.here,
        ⟨choice, captures, finds.greedy.derives⟩⟩ nowhere

/-- There is only one way to read what was found. -/
theorem FindsFirst.unique {scheme : Scheme} (formed : scheme.WellFormed) {text : String}
    {found : Occurrence} {choice other : List Bool}
    {captures others : List (Option (List Char))}
    (finds : scheme.FindsFirst text found choice captures)
    (otherFinds : scheme.FindsFirst text found other others) :
    choice = other ∧ captures = others := by
  constructor
  · apply Prefers.antisymm
    · exact finds.greedy.preferred _ _ _ _ rfl otherFinds.greedy.derives
    · exact otherFinds.greedy.preferred _ _ _ _ rfl finds.greedy.derives
  · have searched := formed.search?_of_findsFirst finds
    rw [formed.search?_of_findsFirst otherFinds] at searched
    cases searched
    rfl

theorem FindsFirst.isValid {scheme : Scheme} {text : String} {found : Occurrence}
    {choice : List Bool} {captures : List (Option (List Char))}
    (finds : scheme.FindsFirst text found choice captures) :
    String.Pos.Raw.IsValid text ⟨found.start⟩ ∧ String.Pos.Raw.IsValid text ⟨found.stop⟩ := by
  rw [← finds.here, Occurrence.text]
  constructor
  · apply String.Pos.Raw.isValid_iff_exists_append.mpr
    exact ⟨found.before, found.core ++ found.after, String.append_assoc, rfl⟩
  · apply String.Pos.Raw.isValid_iff_exists_append.mpr
    refine ⟨found.before ++ found.core, found.after, rfl, ?_⟩
    apply String.Pos.Raw.ext
    exact (String.utf8ByteSize_append (s := found.before) (t := found.core)).symm

/-- Nothing is found exactly when no part of the text is a version. Otherwise what is
found lies between two characters of the text and is a version that no other version
starts before, and it was read in the one way that has the longest runs of digits and
includes a group wherever another way first differs from it. -/
theorem find?_exact {definition : String} {scheme : Scheme}
    (compiled : Scheme.compile definition = .ok scheme) (text : String) :
    (scheme.find? text = none ↔
      ¬ ∃ before core after, before ++ core ++ after = text ∧ scheme.Conforms core) ∧
    ∀ found,
      (scheme.find? text = some found ↔
        ∃ choice captures, scheme.FindsFirst text found choice captures) ∧
      ∀ choice captures, scheme.FindsFirst text found choice captures →
        scheme.Conforms found.core ∧
        String.Pos.Raw.IsValid text ⟨found.start⟩ ∧
        String.Pos.Raw.IsValid text ⟨found.stop⟩ ∧
        ∀ other others, scheme.FindsFirst text found other others →
          choice = other ∧ captures = others := by
  have formed := wellFormed_of_compile compiled
  refine ⟨formed.find?_eq_none_iff text, ?_⟩
  intro found
  refine ⟨formed.find?_eq_some_iff text found, ?_⟩
  intro choice captures finds
  refine ⟨⟨choice, captures, finds.greedy.derives⟩, finds.isValid.1, finds.isValid.2, ?_⟩
  intro other others otherFinds
  exact finds.unique formed otherFinds

/-- The group that comes first takes the digits behind the point, although the second
one could be followed by more of the text. -/
theorem find?_first_sibling :
    Scheme.compile "a[.b][.c-d]" =
      .ok ⟨"a", .group (.field "." "b" .done)
        (.group (.field "." "c" (.field "-" "d" .done)) .done)⟩ ∧
    ∃ choice captures,
      Scheme.FindsFirst ⟨"a", .group (.field "." "b" .done)
        (.group (.field "." "c" (.field "-" "d" .done)) .done)⟩ "ü1.02-3"
        { before := "ü", core := "1.02", after := "-3" } choice captures := by
  have compiled : Scheme.compile "a[.b][.c-d]" =
      .ok ⟨"a", .group (.field "." "b" .done)
        (.group (.field "." "c" (.field "-" "d" .done)) .done)⟩ := by rfl
  exact ⟨compiled, ((find?_exact compiled "ü1.02-3").2 _).1.mp (by rfl)⟩

end Scheme

end Versioning
