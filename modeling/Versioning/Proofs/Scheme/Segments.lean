import Versioning.Proofs.Scheme.Derivation
import Versioning.Proofs.Scheme.Tokens

/-!
The segments of a derived text.

A derived text is a row of segments, each a separator with a run of digits. No
separator holds a digit, so the segments can be told from the text alone: of two
derivations of the beginning of one text, one has the first segments of the other.
-/

namespace Versioning

/-! ### Segments of captures -/

def segments (labels : List (String × String)) (captures : List (Option (List Char))) :
    List (List Char × List Char) :=
  (labels.zip captures).filterMap fun entry =>
    entry.2.map fun digits => (entry.1.1.toList, digits)

def segmentsText (parts : List (List Char × List Char)) : List Char :=
  parts.flatMap fun part => part.1 ++ part.2

theorem segments_cons_some (label : String × String) (labels : List (String × String))
    (digits : List Char) (captures : List (Option (List Char))) :
    segments (label :: labels) (some digits :: captures) =
      (label.1.toList, digits) :: segments labels captures :=
  rfl

theorem segments_cons_none (label : String × String) (labels : List (String × String))
    (captures : List (Option (List Char))) :
    segments (label :: labels) (none :: captures) = segments labels captures :=
  rfl

private theorem segments_append (labels otherLabels : List (String × String))
    (captures otherCaptures : List (Option (List Char)))
    (length : labels.length = captures.length) :
    segments (labels ++ otherLabels) (captures ++ otherCaptures) =
      segments labels captures ++ segments otherLabels otherCaptures := by
  rw [segments, List.zip_append length, List.filterMap_append]
  rfl

private theorem segments_replicate_none (labels : List (String × String)) (count : Nat) :
    segments labels (List.replicate count none) = [] := by
  induction labels generalizing count with
  | nil => rfl
  | cons label labels ih =>
      cases count with
      | zero => rfl
      | succ count => exact ih count

private theorem segmentsText_append (front back : List (List Char × List Char)) :
    segmentsText (front ++ back) = segmentsText front ++ segmentsText back :=
  List.flatMap_append

theorem length_segments (labels : List (String × String))
    (captures : List (Option (List Char))) (length : labels.length = captures.length) :
    (segments labels captures).length = captures.countP Option.isSome := by
  induction captures generalizing labels with
  | nil => simp [segments]
  | cons capture captures ih =>
      cases labels with
      | nil => cases length
      | cons label labels =>
          have later := ih labels (Nat.succ.inj length)
          cases capture with
          | none => simpa [segments_cons_none] using later
          | some digits => simpa [segments_cons_some] using later

/-- The segment with the number `count` belongs to a field with that number or a
larger one. -/
theorem getElem?_segments (labels : List (String × String))
    (captures : List (Option (List Char))) (count : Nat) (part : List Char × List Char)
    (present : (segments labels captures)[count]? = some part) :
    ∃ (index : Nat) (label : String × String), count ≤ index ∧ labels[index]? = some label ∧
      part.1 = label.1.toList := by
  induction labels generalizing captures count with
  | nil => cases present
  | cons label labels ih =>
      cases captures with
      | nil => cases present
      | cons capture captures =>
          cases capture with
          | none =>
              obtain ⟨index, found, enough, labelled, same⟩ := ih captures count present
              exact ⟨index + 1, found, by omega, labelled, same⟩
          | some digits =>
              rw [segments_cons_some] at present
              cases count with
              | zero =>
                  have same := Option.some.inj present
                  exact ⟨0, label, Nat.le_refl 0, rfl, congrArg Prod.fst same.symm⟩
              | succ count =>
                  obtain ⟨index, found, enough, labelled, same⟩ := ih captures count present
                  exact ⟨index + 1, found, by omega, labelled, same⟩

theorem captures_eq_of_segments_eq (labels : List (String × String))
    (captures others : List (Option (List Char))) (length : labels.length = captures.length)
    (sameFields : captures.map Option.isSome = others.map Option.isSome)
    (sameSegments : segments labels captures = segments labels others) :
    captures = others := by
  induction captures generalizing labels others with
  | nil =>
      have none : others = [] := by simpa using sameFields.symm
      exact none.symm
  | cons capture captures ih =>
      cases others with
      | nil => cases sameFields
      | cons other others =>
          cases labels with
          | nil => cases length
          | cons label labels =>
              have fields := List.cons.inj sameFields
              cases capture with
              | none =>
                  cases other with
                  | none =>
                      rw [ih labels others (Nat.succ.inj length) fields.2 sameSegments]
                  | some digits => cases fields.1
              | some digits =>
                  cases other with
                  | none => cases fields.1
                  | some otherDigits =>
                      have parts := List.cons.inj sameSegments
                      have sameDigits : digits = otherDigits := congrArg Prod.snd parts.1
                      rw [ih labels others (Nat.succ.inj length) fields.2 parts.2, sameDigits]

/-! ### Segments of derivations -/

theorem Body.length_labels (body : Body) :
    (Piece.labels body.pieces).length = body.fieldCount := by
  rw [← body.map_label_fields 0, List.length_map, body.length_fields]

private theorem Body.labels_group (inner rest : Body) :
    Piece.labels (Body.group inner rest).pieces =
      Piece.labels inner.pieces ++ Piece.labels rest.pieces :=
  Piece.labels_append inner.pieces (.closing :: rest.pieces)

theorem Body.Derives.segmentsText_eq {body : Body} {choice : List Bool}
    {captures : List (Option (List Char))} {text : List Char}
    (derivation : body.Derives choice captures text) :
    segmentsText (segments (Piece.labels body.pieces) captures) = text := by
  induction derivation with
  | done => rfl
  | @field separator name rest digits choice captures text isRun derivation ih =>
      change separator.toList ++ digits ++
        segmentsText (segments (Piece.labels rest.pieces) captures) = _
      rw [ih, List.append_assoc]
  | @included inner rest innerChoice choice innerCaptures captures innerText text
      derivationInner derivation ihInner ih =>
      rw [Body.labels_group, segments_append, segmentsText_append, ihInner, ih]
      rw [Body.length_labels, derivationInner.length_captures]
  | @leftOut inner rest choice captures text derivation ih =>
      rw [Body.labels_group, segments_append, segments_replicate_none, List.nil_append, ih]
      rw [Body.length_labels, List.length_replicate]

/-- A part of a text whose borders can be told: marks and then digits. -/
def IsSegment (part : List Char × List Char) : Prop :=
  IsRun isMarkChar part.1 ∧ IsRun Char.isDigit part.2

theorem Body.Derives.isSegment {body : Body} {choice : List Bool}
    {captures : List (Option (List Char))} {text : List Char}
    (derivation : body.Derives choice captures text) (formed : body.WellFormed) :
    ∀ part ∈ segments (Piece.labels body.pieces) captures, IsSegment part := by
  induction derivation with
  | done => simp [segments]
  | @field separator name rest digits choice captures text isRun derivation ih =>
      cases formed with
      | field isSeparator isName formedRest =>
          change ∀ part ∈ (separator.toList, digits) ::
            segments (Piece.labels rest.pieces) captures, IsSegment part
          exact List.forall_mem_cons.mpr ⟨⟨isSeparator, isRun⟩, ih formedRest⟩
  | @included inner rest innerChoice choice innerCaptures captures innerText text
      derivationInner derivation ihInner ih =>
      cases formed with
      | group holding formedInner formedRest =>
          rw [Body.labels_group, segments_append]
          · exact List.forall_mem_append.mpr ⟨ihInner formedInner, ih formedRest⟩
          · rw [Body.length_labels, derivationInner.length_captures]
  | @leftOut inner rest choice captures text derivation ih =>
      cases formed with
      | group holding formedInner formedRest =>
          rw [Body.labels_group, segments_append, segments_replicate_none, List.nil_append]
          · exact ih formedRest
          · rw [Body.length_labels, List.length_replicate]

/-! ### Telling segments apart -/

/-- What can follow a whole segment: segments, and then a text that does not go on
with digits. -/
theorem startsWithDigit_segmentsText (parts : List (List Char × List Char))
    (areSegments : ∀ part ∈ parts, IsSegment part) {following : List Char}
    (ended : startsWithDigit following = false) :
    startsWithDigit (segmentsText parts ++ following) = false := by
  cases parts with
  | nil => exact ended
  | cons part parts =>
      have isSegment := areSegments part (List.mem_cons_self ..)
      obtain ⟨isFilled, marks⟩ := isSegment.1
      cases characters : part.1 with
      | nil => exact absurd characters isFilled
      | cons c others =>
          rw [characters] at marks
          have mark := marks c (List.mem_cons_self ..)
          simp [segmentsText, characters, startsWithDigit, isDigit_eq_false_of_isMarkChar c mark]

/-- The separator of a segment ends at its first digit. -/
theorem marks_append_inj {marks otherMarks digits otherDigits : List Char}
    {following other : List Char} (areMarks : ∀ c ∈ marks, isMarkChar c = true)
    (areOtherMarks : ∀ c ∈ otherMarks, isMarkChar c = true)
    (isRun : IsRun Char.isDigit digits) (isOtherRun : IsRun Char.isDigit otherDigits)
    (same : marks ++ (digits ++ following) = otherMarks ++ (otherDigits ++ other)) :
    marks = otherMarks ∧ digits ++ following = otherDigits ++ other := by
  have noDigit (c : Char) (mark : isMarkChar c = true) : (! c.isDigit) = true := by
    rw [isDigit_eq_false_of_isMarkChar c mark]
    rfl
  have atDigit (run text : List Char) (isRun : IsRun Char.isDigit run) :
      (run ++ text).takeWhile (! ·.isDigit) = [] := by
    cases run with
    | nil => exact absurd rfl isRun.1
    | cons c run =>
        have digit := isRun.2 c (List.mem_cons_self ..)
        simp [digit]
  have left : (marks ++ (digits ++ following)).takeWhile (! ·.isDigit) =
      marks ++ (digits ++ following).takeWhile (! ·.isDigit) :=
    List.takeWhile_append_of_pos fun c member => noDigit c (areMarks c member)
  have right : (otherMarks ++ (otherDigits ++ other)).takeWhile (! ·.isDigit) =
      otherMarks ++ (otherDigits ++ other).takeWhile (! ·.isDigit) :=
    List.takeWhile_append_of_pos fun c member => noDigit c (areOtherMarks c member)
  rw [atDigit digits following isRun, List.append_nil] at left
  rw [atDigit otherDigits other isOtherRun, List.append_nil] at right
  have marksEq : marks = otherMarks := left.symm.trans ((congrArg _ same).trans right)
  subst marksEq
  exact ⟨rfl, List.append_cancel_left same⟩

/-- Of two rows of segments at the start of one text, one goes on where the other
ends. -/
theorem segments_comparable (parts others : List (List Char × List Char))
    (following other : List Char) (areSegments : ∀ part ∈ parts, IsSegment part)
    (areOthers : ∀ part ∈ others, IsSegment part)
    (ended : startsWithDigit following = false) (otherEnded : startsWithDigit other = false)
    (same : segmentsText parts ++ following = segmentsText others ++ other) :
    (∃ more, others = parts ++ more ∧ following = segmentsText more ++ other) ∨
      (∃ more, parts = others ++ more ∧ other = segmentsText more ++ following) := by
  induction parts generalizing others with
  | nil => exact .inl ⟨others, rfl, same⟩
  | cons part parts ih =>
      cases others with
      | nil => exact .inr ⟨part :: parts, rfl, same.symm⟩
      | cons otherPart others =>
          have first := List.forall_mem_cons.mp areSegments
          have otherFirst := List.forall_mem_cons.mp areOthers
          have split : part.1 ++ (part.2 ++ (segmentsText parts ++ following)) =
              otherPart.1 ++ (otherPart.2 ++ (segmentsText others ++ other)) := by
            simpa [segmentsText] using same
          obtain ⟨marksEq, runs⟩ := marks_append_inj first.1.1.2 otherFirst.1.1.2
            first.1.2 otherFirst.1.2 split
          obtain ⟨digitsEq, laterEq⟩ := digits_append_inj first.1.2 otherFirst.1.2
            (startsWithDigit_segmentsText parts first.2 ended)
            (startsWithDigit_segmentsText others otherFirst.2 otherEnded) runs
          have partEq : part = otherPart := Prod.ext marksEq digitsEq
          subst partEq
          rcases ih others first.2 otherFirst.2 laterEq with
            ⟨more, rfl, rest⟩ | ⟨more, rfl, rest⟩
          · exact .inl ⟨more, rfl, rest⟩
          · exact .inr ⟨more, rfl, rest⟩

end Versioning
