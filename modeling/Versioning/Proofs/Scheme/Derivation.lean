import Versioning.Proofs.Scheme.WellFormed
import Versioning.Proofs.Scheme.Rows

/-!
Which texts a scheme derives, and which derivation reading picks.

A choice says of each group whether it is included, and derives a text that is
put together from the separators and some digits of the fields that are left. A
text may have several derivations. Reading tries to include a group before it
leaves it out, so among the derivations of a whole text it finds the one that
includes a group at the first bracket where two of them differ.
-/

namespace Versioning

/-! ### Derivations -/

def Body.groupCount : Body → Nat
  | .done => 0
  | .field _ _ rest => rest.groupCount
  | .group inner rest => inner.groupCount + rest.groupCount + 1

/-- `body.Derives choice captures text`: the text consists of a separator and a
run of digits for each field that is in no group left out, in order. The choice
has one answer for each opening bracket, in order, and a group that is left out
takes the groups in it with it; the captures have one entry for each field. -/
inductive Body.Derives :
    Body → List Bool → List (Option (List Char)) → List Char → Prop
  | done : Derives .done [] [] []
  | field {separator name : String} {rest : Body} {digits : List Char}
      {choice : List Bool} {captures : List (Option (List Char))} {text : List Char} :
      IsRun Char.isDigit digits → rest.Derives choice captures text →
        Derives (.field separator name rest) choice (some digits :: captures)
          (separator.toList ++ (digits ++ text))
  | included {inner rest : Body} {innerChoice choice : List Bool}
      {innerCaptures captures : List (Option (List Char))} {innerText text : List Char} :
      inner.Derives innerChoice innerCaptures innerText →
      rest.Derives choice captures text →
        Derives (.group inner rest) (true :: (innerChoice ++ choice))
          (innerCaptures ++ captures) (innerText ++ text)
  | leftOut {inner rest : Body} {choice : List Bool}
      {captures : List (Option (List Char))} {text : List Char} :
      rest.Derives choice captures text →
        Derives (.group inner rest)
          (false :: (List.replicate inner.groupCount false ++ choice))
          (List.replicate inner.fieldCount none ++ captures) text

/-- `Prefers choice other`: at the first bracket where the choices differ, if
there is one, `choice` includes the group. -/
inductive Prefers : List Bool → List Bool → Prop
  | same (choice : List Bool) : Prefers choice choice
  | included (choice other : List Bool) : Prefers (true :: choice) (false :: other)
  | later (flag : Bool) {choice other : List Bool} :
      Prefers choice other → Prefers (flag :: choice) (flag :: other)

private theorem Prefers.append_left {choice other : List Bool} (shared : List Bool)
    (preferred : Prefers choice other) : Prefers (shared ++ choice) (shared ++ other) := by
  induction shared with
  | nil => exact preferred
  | cons flag shared ih => exact .later flag ih

theorem Prefers.antisymm {choice other : List Bool} (preferred : Prefers choice other)
    (converse : Prefers other choice) : choice = other := by
  induction preferred with
  | same choice => rfl
  | included choice other => cases converse
  | later flag preferred ih =>
      cases converse with
      | same => rfl
      | later _ converse => rw [ih converse]

theorem Prefers.eq_replicate_true {choice : List Bool} {count : Nat}
    (preferred : Prefers choice (List.replicate count true)) :
    choice = List.replicate count true := by
  induction count generalizing choice with
  | zero =>
      cases preferred with
      | same => rfl
  | succ count ih =>
      rw [List.replicate_succ] at preferred ⊢
      cases preferred with
      | same => rfl
      | later flag preferred => rw [ih preferred]

theorem Prefers.of_cons {flag : Bool} {choice other : List Bool}
    (preferred : Prefers (flag :: choice) (flag :: other)) : Prefers choice other := by
  cases preferred with
  | same => exact .same _
  | later _ preferred => exact preferred

/-- Two choices that are put together differ first in the first parts or in the
second ones. -/
theorem Prefers.of_append {choice other more otherMore : List Bool}
    (length : choice.length = other.length)
    (preferred : Prefers (choice ++ more) (other ++ otherMore)) :
    (choice = other ∧ Prefers more otherMore) ∨
      (choice ≠ other ∧ Prefers choice other) := by
  induction choice generalizing other with
  | nil =>
      have none : other = [] := List.eq_nil_of_length_eq_zero length.symm
      subst none
      exact .inl ⟨rfl, preferred⟩
  | cons flag choice ih =>
      cases other with
      | nil => cases length
      | cons otherFlag other =>
          by_cases agree : flag = otherFlag
          · subst agree
            rcases ih (Nat.succ.inj length) preferred.of_cons with ⟨same, later⟩ | ⟨differ, earlier⟩
            · exact .inl ⟨congrArg (flag :: ·) same, later⟩
            · refine .inr ⟨?_, .later flag earlier⟩
              intro same
              exact differ (List.cons.inj same).2
          · refine .inr ⟨fun same => agree (List.cons.inj same).1, ?_⟩
            cases flag with
            | true =>
                cases otherFlag with
                | true => exact absurd rfl agree
                | false => exact .included choice other
            | false =>
                cases otherFlag with
                | true => cases preferred
                | false => exact absurd rfl agree

theorem Body.Derives.length_captures {body : Body} {choice : List Bool}
    {captures : List (Option (List Char))} {text : List Char}
    (derivation : body.Derives choice captures text) :
    captures.length = body.fieldCount := by
  induction derivation with
  | done => rfl
  | field isRun derivation ih => rw [List.length_cons, ih, Body.fieldCount]
  | included derivationInner derivation ihInner ih =>
      rw [List.length_append, ihInner, ih, Body.fieldCount]
  | leftOut derivation ih =>
      rw [List.length_append, List.length_replicate, ih, Body.fieldCount]

theorem Body.Derives.length_choice {body : Body} {choice : List Bool}
    {captures : List (Option (List Char))} {text : List Char}
    (derivation : body.Derives choice captures text) :
    choice.length = body.groupCount := by
  induction derivation with
  | done => rfl
  | field isRun derivation ih => exact ih
  | included derivationInner derivation ihInner ih =>
      rw [List.length_cons, List.length_append, ihInner, ih, Body.groupCount]
  | leftOut derivation ih =>
      rw [List.length_cons, List.length_append, List.length_replicate, ih,
        Body.groupCount]

theorem Body.Derives.mem_text {body : Body} {choice : List Bool}
    {captures : List (Option (List Char))} {text : List Char}
    (derivation : body.Derives choice captures text) (depth : Nat) {c : Char}
    (member : c ∈ text) :
    c.isDigit = true ∨ ∃ field ∈ body.fields depth, c ∈ field.separator.toList := by
  have widen {fields more : List Field} (inside : fields ⊆ more)
      (found : c.isDigit = true ∨ ∃ field ∈ fields, c ∈ field.separator.toList) :
      c.isDigit = true ∨ ∃ field ∈ more, c ∈ field.separator.toList := by
    rcases found with digit | ⟨field, known, inSeparator⟩
    · exact .inl digit
    · exact .inr ⟨field, inside known, inSeparator⟩
  induction derivation generalizing depth with
  | done => cases member
  | @field separator name rest digits choice captures text isRun derivation ih =>
      rw [Body.fields]
      rcases List.mem_append.mp member with inSeparator | later
      · exact .inr ⟨_, List.mem_cons_self .., inSeparator⟩
      · rcases List.mem_append.mp later with inDigits | inText
        · exact .inl (isRun.2 c inDigits)
        · exact widen (List.subset_cons_self ..) (ih depth inText)
  | included derivationInner derivation ihInner ih =>
      rw [Body.fields]
      rcases List.mem_append.mp member with inInner | inRest
      · exact widen (List.subset_append_left ..) (ihInner (depth + 1) inInner)
      · exact widen (List.subset_append_right ..) (ih depth inRest)
  | leftOut derivation ih =>
      rw [Body.fields]
      exact widen (List.subset_append_right ..) (ih depth member)

/-! ### Readings step by step -/

def startsWithDigit (text : List Char) : Bool :=
  text.head?.any Char.isDigit

/-- Everything that a body could make of a text when groups are included at will,
where `next` says what could be made of the text after it. Runs of digits are as
long as they can be. -/
def Body.Reads : Body → (List Char → List Bool → Reading → Prop) →
    List Char → List Bool → Reading → Prop
  | .done, next, text, choice, reading => next text choice reading
  | .field separator _ rest, next, text, choice, reading =>
      ∃ digits following after,
        text = separator.toList ++ (digits ++ following) ∧
        IsRun Char.isDigit digits ∧ startsWithDigit following = false ∧
        rest.Reads next following choice after ∧ reading = after.capture digits
  | .group inner rest, next, text, choice, reading =>
      (∃ later, choice = true :: later ∧ inner.Reads (rest.Reads next) text later reading) ∨
      (∃ later after,
        choice = false :: (List.replicate inner.groupCount false ++ later) ∧
        rest.Reads next text later after ∧ reading = after.skip inner.fieldCount)

def IsBest (possible : List Bool → Reading → Prop) : Option Reading → Prop
  | none => ∀ choice reading, ¬ possible choice reading
  | some reading =>
      ∃ choice, possible choice reading ∧
        ∀ other otherReading, possible other otherReading → Prefers choice other

theorem afterSeparator?_append (separator text : List Char) :
    afterSeparator? separator (separator ++ text) = some text := by
  induction separator with
  | nil => rfl
  | cons mark separator ih => simpa [afterSeparator?] using ih

theorem eq_append_of_afterSeparator? {separator text following : List Char}
    (taken : afterSeparator? separator text = some following) :
    text = separator ++ following := by
  rw [afterSeparator?_eq] at taken
  split at taken
  · next isStart =>
      obtain ⟨others, rfl⟩ := List.isPrefixOf_iff_prefix.mp isStart
      rw [List.drop_left] at taken
      rw [Option.some.inj taken]
  · cases taken

private theorem takeWhile_isDigit_append {digits following : List Char}
    (isRun : IsRun Char.isDigit digits) (ended : startsWithDigit following = false) :
    (digits ++ following).takeWhile Char.isDigit = digits ∧
      (digits ++ following).dropWhile Char.isDigit = following := by
  rw [List.takeWhile_append_of_pos isRun.2, List.dropWhile_append_of_pos isRun.2]
  cases following with
  | nil => simp
  | cons c following =>
      have other : c.isDigit = false := by simpa [startsWithDigit] using ended
      simp [other]

theorem isRun_takeWhile_isDigit {text : List Char}
    (some : text.takeWhile Char.isDigit ≠ []) :
    IsRun Char.isDigit (text.takeWhile Char.isDigit) := by
  refine ⟨some, ?_⟩
  intro c member
  exact List.all_eq_true.mp List.all_takeWhile c member

theorem startsWithDigit_dropWhile (text : List Char) :
    startsWithDigit (text.dropWhile Char.isDigit) = false := by
  induction text with
  | nil => rfl
  | cons c text ih =>
      cases digit : c.isDigit with
      | true => rwa [List.dropWhile_cons_of_pos digit]
      | false => simp [startsWithDigit, digit]

theorem readDigits_append (following : List Char → Option Reading)
    {digits text : List Char} (isRun : IsRun Char.isDigit digits)
    (ended : startsWithDigit text = false) :
    readDigits following (digits ++ text) = (following text).map (·.capture digits) := by
  have parts := takeWhile_isDigit_append isRun ended
  unfold readDigits
  rw [parts.1, parts.2]
  split
  · exact absurd rfl isRun.1
  · rfl

theorem readDigits_of_takeWhile_eq_nil (following : List Char → Option Reading)
    {text : List Char} (noDigits : text.takeWhile Char.isDigit = []) :
    readDigits following text = none := by
  unfold readDigits
  rw [noDigits]

private theorem digits_cases (text : List Char) :
    text.takeWhile Char.isDigit = [] ∨
      ∃ digits following, text = digits ++ following ∧
        IsRun Char.isDigit digits ∧ startsWithDigit following = false := by
  by_cases noDigits : text.takeWhile Char.isDigit = []
  · exact .inl noDigits
  · exact .inr ⟨text.takeWhile Char.isDigit, text.dropWhile Char.isDigit,
      List.takeWhile_append_dropWhile.symm, isRun_takeWhile_isDigit noDigits,
      startsWithDigit_dropWhile text⟩

theorem digits_append_inj {digits otherDigits following other : List Char}
    (isRun : IsRun Char.isDigit digits) (isOtherRun : IsRun Char.isDigit otherDigits)
    (ended : startsWithDigit following = false) (otherEnded : startsWithDigit other = false)
    (same : digits ++ following = otherDigits ++ other) :
    digits = otherDigits ∧ following = other := by
  have parts := takeWhile_isDigit_append isRun ended
  have otherParts := takeWhile_isDigit_append isOtherRun otherEnded
  rw [same] at parts
  exact ⟨parts.1.symm.trans otherParts.1, parts.2.symm.trans otherParts.2⟩

/-! ### Reading picks the preferred choice -/

private theorem IsBest.capture {possible : List Bool → Reading → Prop} {answer : Option Reading}
    (best : IsBest possible answer) (digits : List Char) :
    IsBest (fun choice reading => ∃ after, possible choice after ∧ reading = after.capture digits)
      (answer.map (·.capture digits)) := by
  cases answer with
  | none =>
      rintro choice reading ⟨after, isPossible, _⟩
      exact best choice after isPossible
  | some reading =>
      obtain ⟨choice, isPossible, preferred⟩ := best
      refine ⟨choice, ⟨reading, isPossible, rfl⟩, ?_⟩
      rintro other otherReading ⟨after, isOther, _⟩
      exact preferred other after isOther

section IsBest

variable {inner rest : Body} {next : List Char → Option Reading}
  {possible : List Char → List Bool → Reading → Prop}

/-- Where the run of digits of a field ends is settled by the text. -/
private theorem Body.reads_field_eq {digits following : List Char}
    (isRun : IsRun Char.isDigit digits) (ended : startsWithDigit following = false)
    (separator name : String) :
    (field separator name rest).Reads possible (separator.toList ++ (digits ++ following)) =
      fun choice reading => ∃ after, rest.Reads possible following choice after ∧
        reading = after.capture digits := by
  funext choice reading
  apply propext
  constructor
  · rintro ⟨otherDigits, other, after, same, isOtherRun, otherEnded, reads, rfl⟩
    obtain ⟨rfl, rfl⟩ := digits_append_inj isRun isOtherRun ended otherEnded
      (List.append_cancel_left same)
    exact ⟨after, reads, rfl⟩
  · rintro ⟨after, reads, rfl⟩
    exact ⟨digits, following, after, rfl, isRun, ended, reads, rfl⟩

private theorem Body.isBest_field
    (best : ∀ text, IsBest (rest.Reads possible text) (rest.readThen next text))
    (separator name : String) (text : List Char) :
    IsBest ((field separator name rest).Reads possible text)
      ((field separator name rest).readThen next text) := by
  rw [readThen]
  cases taken : afterSeparator? separator.toList text with
  | none =>
      rintro choice reading ⟨digits, following, after, rfl, _⟩
      rw [afterSeparator?_append] at taken
      cases taken
  | some others =>
      have textEq := eq_append_of_afterSeparator? taken
      subst textEq
      change IsBest _ (readDigits (rest.readThen next) others)
      rcases digits_cases others with noDigits | ⟨digits, following, rfl, isRun, ended⟩
      · rw [readDigits_of_takeWhile_eq_nil _ noDigits]
        rintro choice reading ⟨digits, following, after, same, isRun, ended, _⟩
        rw [List.append_cancel_left same, (takeWhile_isDigit_append isRun ended).1] at noDigits
        exact isRun.1 noDigits
      · rw [readDigits_append _ isRun ended, reads_field_eq isRun ended]
        exact (best following).capture digits

private theorem Body.isBest_group
    (best : ∀ text, IsBest (rest.Reads possible text) (rest.readThen next text))
    {text : List Char}
    (bestInner : IsBest (inner.Reads (rest.Reads possible) text)
      (inner.readThen (rest.readThen next) text)) :
    IsBest ((group inner rest).Reads possible text) ((group inner rest).readThen next text) := by
  rw [readThen]
  cases read : inner.readThen (rest.readThen next) text with
  | some reading =>
      rw [read] at bestInner
      obtain ⟨choice, isPossible, preferred⟩ := bestInner
      refine ⟨true :: choice, .inl ⟨choice, rfl, isPossible⟩, ?_⟩
      rintro other otherReading (⟨later, rfl, reads⟩ | ⟨later, after, rfl, _⟩)
      · exact .later true (preferred later otherReading reads)
      · exact .included choice _
  | none =>
      rw [read] at bestInner
      have bestRest := best text
      cases readRest : rest.readThen next text with
      | none =>
          rw [readRest] at bestRest
          rintro choice reading (⟨later, rfl, reads⟩ | ⟨later, after, rfl, reads, _⟩)
          · exact bestInner later reading reads
          · exact bestRest later after reads
      | some after =>
          rw [readRest] at bestRest
          obtain ⟨choice, isPossible, preferred⟩ := bestRest
          refine ⟨_, .inr ⟨choice, after, rfl, isPossible, rfl⟩, ?_⟩
          rintro other otherReading (⟨later, rfl, reads⟩ | ⟨later, other, rfl, reads, _⟩)
          · exact absurd reads (bestInner later otherReading)
          · exact .later false ((preferred later other reads).append_left _)

end IsBest

/-- Reading a body gives the best of its readings, if what is read after it does. -/
theorem Body.isBest_readThen (body : Body) (next : List Char → Option Reading)
    (possible : List Char → List Bool → Reading → Prop)
    (best : ∀ text, IsBest (possible text) (next text)) (text : List Char) :
    IsBest (body.Reads possible text) (body.readThen next text) := by
  induction body generalizing next possible text with
  | done => exact best text
  | field separator name rest ih => exact isBest_field (ih next possible best) separator name text
  | group inner rest ihInner ihRest =>
      have bestRest := ihRest next possible best
      exact isBest_group bestRest (ihInner (rest.readThen next) (rest.Reads possible) bestRest text)

/-! ### Readings and derivations -/

theorem Body.Reads.derives {body : Body} {next : List Char → List Bool → Reading → Prop}
    {text : List Char} {choice : List Bool} {reading : Reading}
    (reads : body.Reads next text choice reading) :
    ∃ own captures consumed later following after,
      body.Derives own captures consumed ∧ text = consumed ++ following ∧
      choice = own ++ later ∧ next following later after ∧
      reading = { captures := captures ++ after.captures, rest := after.rest } := by
  induction body generalizing next text choice reading with
  | done => exact ⟨[], [], [], choice, text, reading, .done, rfl, rfl, reads, rfl⟩
  | field separator name rest ih =>
      obtain ⟨digits, others, readLater, rfl, isRun, _, reads, rfl⟩ := reads
      obtain ⟨own, captures, consumed, later, following, after, derivation, rfl, rfl,
        readsNext, rfl⟩ := ih reads
      refine ⟨own, some digits :: captures, separator.toList ++ (digits ++ consumed), later,
        following, after, .field isRun derivation, ?_, rfl, readsNext, rfl⟩
      simp
  | group inner rest ihInner ihRest =>
      rcases reads with ⟨others, rfl, reads⟩ | ⟨others, readLater, rfl, reads, rfl⟩
      · obtain ⟨innerChoice, innerCaptures, innerText, _, _, _, derivationInner, rfl, rfl,
          readsRest, rfl⟩ := ihInner reads
        obtain ⟨own, captures, consumed, later, following, after, derivation, rfl, rfl,
          readsNext, rfl⟩ := ihRest readsRest
        refine ⟨_, _, _, later, following, after, .included derivationInner derivation, ?_, ?_,
          readsNext, ?_⟩
        · rw [List.append_assoc]
        · rw [List.cons_append, List.append_assoc]
        · rw [List.append_assoc]
      · obtain ⟨own, captures, consumed, later, following, after, derivation, rfl, rfl,
          readsNext, rfl⟩ := ihRest reads
        refine ⟨_, _, _, later, following, after, .leftOut derivation, rfl, ?_, readsNext, ?_⟩
        · rw [List.cons_append, List.append_assoc]
        · simp [Reading.skip]

theorem startsWithDigit_append_of_isSeparator {separator : String}
    (isSeparator : IsSeparator separator) (text : List Char) :
    startsWithDigit (separator.toList ++ text) = false := by
  obtain ⟨isFilled, marks⟩ := isSeparator
  cases characters : separator.toList with
  | nil => exact absurd characters isFilled
  | cons c others =>
      rw [characters] at marks
      have mark := marks c (List.mem_cons_self ..)
      simpa [startsWithDigit] using isDigit_eq_false_of_isMarkChar c mark

/-- What a well-formed body derives does not go on with the digits before it. -/
theorem Body.Derives.startsWithDigit_append {body : Body} {choice : List Bool}
    {captures : List (Option (List Char))} {text : List Char}
    (derivation : body.Derives choice captures text) (formed : body.WellFormed)
    {following : List Char} (ended : startsWithDigit following = false) :
    startsWithDigit (text ++ following) = false := by
  induction derivation generalizing following with
  | done => exact ended
  | field isRun derivation ih =>
      cases formed with
      | field isSeparator isName formedRest =>
          rw [List.append_assoc]
          exact startsWithDigit_append_of_isSeparator isSeparator _
  | included derivationInner derivation ihInner ih =>
      cases formed with
      | group holding formedInner formedRest =>
          rw [List.append_assoc]
          exact ihInner formedInner (ih formedRest ended)
  | leftOut derivation ih =>
      cases formed with
      | group holding formedInner formedRest => exact ih formedRest ended

/-- A derivation of some text that the following text does not lengthen can be
read. -/
theorem Body.Derives.reads {body : Body} {own : List Bool}
    {captures : List (Option (List Char))} {consumed : List Char}
    (derivation : body.Derives own captures consumed) (formed : body.WellFormed)
    {next : List Char → List Bool → Reading → Prop} {following : List Char}
    {later : List Bool} {after : Reading} (ended : startsWithDigit following = false)
    (readsNext : next following later after) :
    body.Reads next (consumed ++ following) (own ++ later)
      { captures := captures ++ after.captures, rest := after.rest } := by
  induction derivation generalizing next following later after with
  | done => exact readsNext
  | @field separator name rest digits choice captures text isRun derivation ih =>
      cases formed with
      | field isSeparator isName formedRest =>
          refine ⟨digits, text ++ following, _, ?_, isRun,
            derivation.startsWithDigit_append formedRest ended,
            ih formedRest ended readsNext, rfl⟩
          simp
  | @included inner rest innerChoice choice innerCaptures captures innerText text
      derivationInner derivation ihInner ih =>
      cases formed with
      | group holding formedInner formedRest =>
          have readsRest := ih formedRest ended readsNext
          have readsInner := ihInner formedInner
            (derivation.startsWithDigit_append formedRest ended) readsRest
          rw [List.append_assoc, List.cons_append, List.append_assoc, List.append_assoc]
          exact .inl ⟨_, rfl, readsInner⟩
  | @leftOut inner rest choice captures text derivation ih =>
      cases formed with
      | group holding formedInner formedRest =>
          rw [List.cons_append, List.append_assoc, List.append_assoc]
          exact .inr ⟨_, _, rfl, ih formedRest ended readsNext, rfl⟩

theorem Body.Reads.unique {body : Body} {next : List Char → List Bool → Reading → Prop}
    (nextUnique : ∀ text choice reading other,
      next text choice reading → next text choice other → reading = other)
    {text : List Char} {choice : List Bool} {reading other : Reading}
    (reads : body.Reads next text choice reading)
    (otherReads : body.Reads next text choice other) : reading = other := by
  induction body generalizing next text choice reading other with
  | done => exact nextUnique text choice reading other reads otherReads
  | field separator name rest ih =>
      obtain ⟨digits, following, after, rfl, isRun, ended, reads, rfl⟩ := reads
      obtain ⟨otherDigits, otherFollowing, otherAfter, same, isOtherRun, otherEnded,
        otherReads, rfl⟩ := otherReads
      obtain ⟨rfl, rfl⟩ := digits_append_inj isRun isOtherRun ended otherEnded
        (List.append_cancel_left same)
      rw [ih nextUnique reads otherReads]
  | group inner rest ihInner ihRest =>
      have restUnique : ∀ text choice reading other,
          rest.Reads next text choice reading → rest.Reads next text choice other →
            reading = other := by
        intro text choice reading other reads otherReads
        exact ihRest nextUnique reads otherReads
      rcases reads with ⟨later, rfl, reads⟩ | ⟨later, after, rfl, reads, rfl⟩
      · rcases otherReads with ⟨otherLater, same, otherReads⟩ | ⟨_, _, impossible, _⟩
        · rw [(List.cons.inj same).2] at reads
          exact ihInner restUnique reads otherReads
        · cases impossible
      · rcases otherReads with ⟨_, impossible, _⟩ | ⟨otherLater, otherAfter, same, otherReads, rfl⟩
        · cases impossible
        · rw [List.append_cancel_left (List.cons.inj same).2] at reads
          rw [ihRest nextUnique reads otherReads]

/-! ### Whole texts -/

def ReadsEnd (text : List Char) (choice : List Bool) (reading : Reading) : Prop :=
  text = [] ∧ choice = [] ∧ reading = { captures := [], rest := [] }

theorem isBest_readEnd (text : List Char) : IsBest (ReadsEnd text) (readEnd text) := by
  cases text with
  | nil =>
      refine ⟨[], ⟨rfl, rfl, rfl⟩, ?_⟩
      rintro other reading ⟨_, rfl, _⟩
      exact .same []
  | cons c text =>
      rintro choice reading ⟨impossible, _⟩
      cases impossible

namespace Scheme

/-- The leading field needs no separator, since nothing stands before it. -/
theorem WellFormed.reads {scheme : Scheme} (formed : scheme.WellFormed) {own : List Bool}
    {captures : List (Option (List Char))} {consumed : List Char}
    (derivation : scheme.whole.Derives own captures consumed)
    {next : List Char → List Bool → Reading → Prop} {following : List Char}
    {later : List Bool} {after : Reading} (ended : startsWithDigit following = false)
    (readsNext : next following later after) :
    scheme.whole.Reads next (consumed ++ following) (own ++ later)
      { captures := captures ++ after.captures, rest := after.rest } := by
  cases derivation with
  | @field _ _ _ digits _ captures text isRun derivation =>
      refine ⟨digits, text ++ following, _, ?_, isRun,
        derivation.startsWithDigit_append formed.body ended,
        derivation.reads formed.body ended readsNext, rfl⟩
      simp

theorem WellFormed.reads_end {scheme : Scheme} (formed : scheme.WellFormed)
    {choice : List Bool} {captures : List (Option (List Char))} {text : List Char}
    (derivation : scheme.whole.Derives choice captures text) :
    scheme.whole.Reads ReadsEnd text choice { captures, rest := [] } := by
  have atEnd : ReadsEnd [] [] { captures := [], rest := [] } := ⟨rfl, rfl, rfl⟩
  have noDigit : startsWithDigit [] = false := rfl
  have reads := formed.reads derivation noDigit atEnd
  simpa using reads

theorem derives_of_reads_end {scheme : Scheme} {choice : List Bool} {reading : Reading}
    {text : List Char} (reads : scheme.whole.Reads ReadsEnd text choice reading) :
    scheme.whole.Derives choice reading.captures text := by
  obtain ⟨own, captures, consumed, later, following, after, derivation, rfl, rfl,
    ⟨rfl, rfl, rfl⟩, rfl⟩ := reads.derives
  simpa using derivation

/-- The captures of the derivation whose choice is preferred to those of all other
derivations of the text. -/
def Chosen (scheme : Scheme) (text : List Char) (captures : List (Option (List Char))) : Prop :=
  ∃ choice, scheme.whole.Derives choice captures text ∧
    ∀ other otherCaptures, scheme.whole.Derives other otherCaptures text →
      Prefers choice other

theorem isBest_readWhole (scheme : Scheme) (text : List Char) :
    IsBest (scheme.whole.Reads ReadsEnd text) (scheme.whole.readThen readEnd text) :=
  scheme.whole.isBest_readThen readEnd ReadsEnd isBest_readEnd text

theorem WellFormed.readWhole?_eq_none_iff {scheme : Scheme} (formed : scheme.WellFormed)
    (text : List Char) :
    scheme.readWhole? text = none ↔
      ¬ ∃ choice captures, scheme.whole.Derives choice captures text := by
  have best := scheme.isBest_readWhole text
  rw [readWhole?_eq, Option.map_eq_none_iff]
  cases read : scheme.whole.readThen readEnd text with
  | none =>
      rw [read] at best
      refine ⟨fun _ => ?_, fun _ => rfl⟩
      rintro ⟨choice, captures, derivation⟩
      exact best choice _ (formed.reads_end derivation)
  | some reading =>
      rw [read] at best
      obtain ⟨choice, reads, _⟩ := best
      constructor
      · intro impossible
        cases impossible
      · intro underivable
        exact absurd ⟨choice, _, derives_of_reads_end reads⟩ underivable

theorem WellFormed.chosen_of_readWhole? {scheme : Scheme} (formed : scheme.WellFormed)
    {text : List Char} {captures : List (Option (List Char))}
    (read : scheme.readWhole? text = some captures) : scheme.Chosen text captures := by
  rw [readWhole?_eq, Option.map_eq_some_iff] at read
  obtain ⟨reading, read, rfl⟩ := read
  have best := scheme.isBest_readWhole text
  rw [read] at best
  obtain ⟨choice, reads, preferred⟩ := best
  refine ⟨choice, derives_of_reads_end reads, ?_⟩
  intro other otherCaptures derivation
  exact preferred other _ (formed.reads_end derivation)

theorem WellFormed.chosen_unique {scheme : Scheme} (formed : scheme.WellFormed)
    {text : List Char} {captures others : List (Option (List Char))}
    (chosen : scheme.Chosen text captures) (otherChosen : scheme.Chosen text others) :
    captures = others := by
  obtain ⟨choice, derivation, preferred⟩ := chosen
  obtain ⟨other, otherDerivation, otherPreferred⟩ := otherChosen
  have same : choice = other :=
    (preferred other others otherDerivation).antisymm
      (otherPreferred choice captures derivation)
  subst same
  have endUnique : ∀ text choice reading other,
      ReadsEnd text choice reading → ReadsEnd text choice other → reading = other := by
    rintro text choice reading other ⟨_, _, rfl⟩ ⟨_, _, rfl⟩
    rfl
  have readings := (formed.reads_end derivation).unique endUnique
    (formed.reads_end otherDerivation)
  exact congrArg Reading.captures readings

theorem WellFormed.readWhole?_eq_some_iff {scheme : Scheme} (formed : scheme.WellFormed)
    (text : List Char) (captures : List (Option (List Char))) :
    scheme.readWhole? text = some captures ↔ scheme.Chosen text captures := by
  constructor
  · exact formed.chosen_of_readWhole?
  · intro chosen
    cases read : scheme.readWhole? text with
    | none =>
        obtain ⟨choice, derivation, _⟩ := chosen
        exact absurd ⟨choice, captures, derivation⟩
          ((formed.readWhole?_eq_none_iff text).mp read)
    | some others =>
        rw [formed.chosen_unique (formed.chosen_of_readWhole? read) chosen]

end Scheme

end Versioning
