import Versioning.Proofs.Version.Literal
import Versioning.Proofs.Version.Rendering

/-!
Reading a rendered version.

The kept groups take as few fields as any choice that is preferred to them, and a
preferred choice that takes more of them would have to read on behind the rendered
text. So a rendered version is read back as it was written, whatever follows it, as
long as what follows does not look like a digit or an optional field.
-/

namespace Versioning

/-! ### Behind the cut -/

theorem Version.droppable_of_cut_le {scheme : Scheme} {version : Version} {index : Nat}
    {field : Field} (behind : version.cut scheme ≤ index)
    (present : scheme.fields[index]? = some field) : version.droppable field = true := by
  have parts : scheme.fields =
      (scheme.fields.reverse.dropWhile version.droppable).reverse ++
        (scheme.fields.reverse.takeWhile version.droppable).reverse := by
    rw [← List.reverse_append, List.takeWhile_append_dropWhile, List.reverse_reverse]
  rw [parts, List.getElem?_append_right (by simpa [Version.cut] using behind)] at present
  have member := List.mem_reverse.mp (List.mem_of_getElem? present)
  exact List.all_eq_true.mp List.all_takeWhile field member

theorem Version.value_eq_zero_of_cut_le {scheme : Scheme} {version : Version} {index : Nat}
    {name : String} (behind : version.cut scheme ≤ index)
    (named : (scheme.fields.map Field.name)[index]? = some name) :
    version.value name = 0 := by
  rw [List.getElem?_map] at named
  obtain ⟨field, present, rfl⟩ := Option.map_eq_some_iff.mp named
  have droppable := Version.droppable_of_cut_le behind present
  simp only [Version.droppable, Bool.and_eq_true, beq_iff_eq] at droppable
  exact droppable.2

private theorem captureNumber_digits (version : Version) (name : String) :
    captureNumber (some (version.digits name)) = (version.value name).toNat :=
  Nat.ofDigitChars_ten_toDigits

private theorem captureValue_digits (version : Version) (name : String) :
    captureValue (some (version.digits name)) = version.value name := by
  rw [captureValue, captureNumber_digits, UInt64.ofNat_toNat]

namespace Body

variable (version : Version) (cut : Nat)

private theorem length_keptChoice (body : Body) (next : Nat) :
    (body.keptChoice cut next).length = body.groupCount :=
  (body.derives_kept .empty cut next).length_choice

private theorem captureNumber_keptCaptures_lt (body : Body) (next : Nat) :
    ∀ capture ∈ body.keptCaptures version cut next, captureNumber capture < UInt64.size := by
  induction body generalizing next with
  | done => simp [keptCaptures]
  | field separator name rest ih =>
      refine List.forall_mem_cons.mpr ⟨?_, ih (next + 1)⟩
      rw [captureNumber_digits]
      exact UInt64.toNat_lt _
  | group inner rest ihInner ihRest =>
      refine List.forall_mem_append.mpr ⟨?_, ihRest _⟩
      by_cases kept : next < cut
      · rw [if_pos kept]
        exact ihInner next
      · rw [if_neg kept]
        intro capture member
        rw [(List.mem_replicate.mp member).2]
        exact captureNumber_none_lt

/-- What is left out counts as zero, which it is behind the cut. -/
private theorem map_captureValue_keptCaptures (body : Body) (next : Nat)
    (zeros : ∀ index name, cut ≤ next + index →
      (Piece.names body.pieces)[index]? = some name → version.value name = 0) :
    (body.keptCaptures version cut next).map captureValue =
      (Piece.names body.pieces).map version.value := by
  induction body generalizing next with
  | done => rfl
  | field separator name rest ih =>
      have later := ih (next + 1) fun index other behind present =>
        zeros (index + 1) other (by omega) present
      change captureValue (some (version.digits name)) ::
        (rest.keptCaptures version cut (next + 1)).map captureValue =
          version.value name :: (Piece.names rest.pieces).map version.value
      rw [captureValue_digits, later]
  | group inner rest ihInner ihRest =>
      have names : Piece.names (Body.group inner rest).pieces =
          Piece.names inner.pieces ++ Piece.names rest.pieces :=
        Piece.names_append inner.pieces (.closing :: rest.pieces)
      rw [names] at zeros ⊢
      have innerZeros : ∀ index name, cut ≤ next + index →
          (Piece.names inner.pieces)[index]? = some name → version.value name = 0 := by
        intro index name behind present
        refine zeros index name behind ?_
        rw [List.getElem?_append_left (List.getElem?_eq_some_iff.mp present).1, present]
      have later := ihRest (next + inner.fieldCount) (by
        intro index name behind present
        refine zeros (inner.fieldCount + index) name (by omega) ?_
        rw [← inner.length_names, List.getElem?_append_right (Nat.le_add_right _ _),
          Nat.add_sub_cancel_left, present])
      rw [keptCaptures, List.map_append, List.map_append, later]
      congr 1
      by_cases kept : next < cut
      · rw [if_pos kept]
        exact ihInner next innerZeros
      · rw [if_neg kept, List.map_replicate]
        refine List.ext_getElem? fun index => ?_
        rw [List.getElem?_map]
        cases present : (Piece.names inner.pieces)[index]? with
        | none =>
            have outside := List.getElem?_eq_none_iff.mp present
            rw [inner.length_names] at outside
            rw [List.getElem?_eq_none_iff.mpr (by rw [List.length_replicate]; exact outside)]
            rfl
        | some name =>
            have inside := (List.getElem?_eq_some_iff.mp present).1
            rw [inner.length_names] at inside
            rw [List.getElem?_replicate, if_pos inside, Option.map_some,
              innerZeros index name (by omega) present]
            rfl

private theorem min_cut_le_countP (body : Body) (next : Nat) :
    min cut (next + body.fieldCount) ≤
      next + (body.keptCaptures version cut next).countP Option.isSome := by
  induction body generalizing next with
  | done => exact Nat.min_le_right _ _
  | field separator name rest ih =>
      have later := ih (next + 1)
      rw [keptCaptures, fieldCount, List.countP_cons_of_pos rfl]
      omega
  | group inner rest ihInner ihRest =>
      have later := ihRest (next + inner.fieldCount)
      rw [keptCaptures, fieldCount, List.countP_append]
      by_cases kept : next < cut
      · have first := ihInner next
        rw [if_pos kept]
        omega
      · omega

end Body

/-! ### No preferred choice takes fewer fields -/

def Leaner (kept captures : List (Option (List Char))) : Prop :=
  kept.countP Option.isSome ≤ captures.countP Option.isSome ∧
    (kept.countP Option.isSome = captures.countP Option.isSome →
      kept.map Option.isSome = captures.map Option.isSome)

private theorem Leaner.nil : Leaner [] [] :=
  ⟨Nat.le_refl _, fun _ => rfl⟩

private theorem Leaner.append {kept captures otherKept otherCaptures : List (Option (List Char))}
    (first : Leaner kept captures) (second : Leaner otherKept otherCaptures) :
    Leaner (kept ++ otherKept) (captures ++ otherCaptures) := by
  have firstLe := first.1
  have secondLe := second.1
  rw [Leaner, List.countP_append, List.countP_append, List.map_append, List.map_append]
  refine ⟨by omega, ?_⟩
  intro same
  rw [first.2 (by omega), second.2 (by omega)]

private theorem Leaner.captured {kept captures : List (Option (List Char))}
    (digits otherDigits : List Char) (leaner : Leaner kept captures) :
    Leaner (some digits :: kept) (some otherDigits :: captures) := by
  have first : Leaner [some digits] [some otherDigits] := ⟨Nat.le_refl _, fun _ => rfl⟩
  exact first.append leaner

private theorem Leaner.leftOut (captures : List (Option (List Char))) :
    Leaner (List.replicate captures.length none) captures := by
  have none : (List.replicate captures.length (none : Option (List Char))).countP
      Option.isSome = 0 := by
    simp
  refine ⟨by omega, ?_⟩
  intro same
  rw [none] at same
  have absent := List.countP_eq_zero.mp same.symm
  rw [List.map_replicate, Option.isSome_none]
  symm
  rw [List.eq_replicate_iff, List.length_map]
  refine ⟨rfl, ?_⟩
  intro flag member
  obtain ⟨capture, present, rfl⟩ := List.mem_map.mp member
  simpa using absent capture present

namespace Body

variable {version : Version} {cut : Nat}

/-- Behind the cut all groups are left out, and every derivation has at least the
fields that are in no group. -/
private theorem Derives.leaner_of_cut_le {body : Body} {choice : List Bool}
    {captures : List (Option (List Char))} {text : List Char}
    (derivation : body.Derives choice captures text) {next : Nat} (behind : cut ≤ next) :
    Leaner (body.keptCaptures version cut next) captures := by
  induction derivation generalizing next with
  | done => exact .nil
  | field isRun derivation ih => exact (ih (Nat.le_succ_of_le behind)).captured _ _
  | @included inner rest innerChoice choice innerCaptures captures innerText text
      derivationInner derivation ihInner ih =>
      have later : Leaner (rest.keptCaptures version cut (next + inner.fieldCount)) captures :=
        ih (Nat.le_add_right_of_le behind)
      rw [keptCaptures, if_neg (Nat.not_lt.mpr behind), ← derivationInner.length_captures]
      rw [← derivationInner.length_captures] at later
      exact (Leaner.leftOut innerCaptures).append later
  | @leftOut inner rest choice captures text derivation ih =>
      rw [keptCaptures, if_neg (Nat.not_lt.mpr behind)]
      exact Leaner.append ⟨Nat.le_refl _, fun _ => rfl⟩
        (ih (Nat.le_add_right_of_le behind))

/-- Before the cut all groups are kept. -/
private theorem WellFormed.keptChoice_of_le {body : Body} (formed : body.WellFormed) {next : Nat}
    (before : next + body.fieldCount ≤ cut) :
    body.keptChoice cut next = List.replicate body.groupCount true := by
  induction formed generalizing next with
  | done => rfl
  | field isSeparator isName formedRest ih =>
      rw [fieldCount] at before
      exact ih (by omega)
  | @group inner rest holding formedInner formedRest ihInner ihRest =>
      have inside := formedInner.fieldCount_pos holding
      rw [fieldCount] at before
      rw [keptChoice, if_pos (by omega : next < cut), ihInner (by omega), ihRest (by omega),
        groupCount, List.cons_append, List.replicate_append_replicate, List.replicate_succ]

/-- A derivation whose choice is preferred to the kept groups has at least as many
fields. Where the two choices differ first, the cut was passed, so that all groups
after it are left out. -/
theorem Derives.leaner {body : Body} {choice : List Bool}
    {captures : List (Option (List Char))} {text : List Char}
    (derivation : body.Derives choice captures text) (formed : body.WellFormed) {next : Nat}
    (preferred : Prefers choice (body.keptChoice cut next)) :
    Leaner (body.keptCaptures version cut next) captures := by
  induction derivation generalizing next with
  | done => exact .nil
  | field isRun derivation ih =>
      cases formed with
      | field isSeparator isName formedRest =>
          exact (ih formedRest preferred).captured _ _
  | @included inner rest innerChoice choice innerCaptures captures innerText text
      derivationInner derivation ihInner ih =>
      cases formed with
      | group holding formedInner formedRest =>
          by_cases kept : next < cut
          · rw [keptChoice, if_pos kept, List.cons_append] at preferred
            rw [keptCaptures, if_pos kept]
            have length : innerChoice.length = (inner.keptChoice cut next).length := by
              rw [derivationInner.length_choice, inner.length_keptChoice]
            rcases preferred.of_cons.of_append length with
              ⟨same, later⟩ | ⟨differ, earlier⟩
            · have first : Leaner (inner.keptCaptures version cut next) innerCaptures :=
                ihInner formedInner (same ▸ .same innerChoice)
              exact first.append (ih formedRest later)
            · have passed : cut ≤ next + inner.fieldCount := by
                rcases Nat.le_total cut (next + inner.fieldCount) with passed | before
                · exact passed
                · rw [formedInner.keptChoice_of_le before] at differ earlier
                  exact absurd earlier.eq_replicate_true differ
              exact (ihInner formedInner earlier).append (derivation.leaner_of_cut_le passed)
          · exact (derivationInner.included derivation).leaner_of_cut_le (Nat.not_lt.mp kept)
  | @leftOut inner rest choice captures text derivation ih =>
      by_cases kept : next < cut
      · rw [keptChoice, if_pos kept, List.cons_append] at preferred
        cases preferred
      · exact derivation.leftOut.leaner_of_cut_le (Nat.not_lt.mp kept)

end Body

/-! ### Reading what was rendered -/

/-- A text that cannot be read as more of a version that ends before it: it starts
neither with a digit nor with an optional field's separator and a digit. -/
def Scheme.EndsBefore (scheme : Scheme) (following : List Char) : Prop :=
  startsWithDigit following = false ∧
    ∀ field ∈ scheme.fields, field.required = false →
      ∀ others, following = field.separator.toList ++ others →
        startsWithDigit others = false

theorem Scheme.endsBefore_nil (scheme : Scheme) : scheme.EndsBefore [] := by
  refine ⟨rfl, ?_⟩
  intro field _ _ others same
  have none : others = [] := (List.append_eq_nil_iff.mp same.symm).2
  rw [none]
  rfl

theorem Scheme.endsBefore_of_not_prefix {scheme : Scheme} {following : List Char}
    (noDigit : startsWithDigit following = false)
    (apart : ∀ field ∈ scheme.fields, field.required = false →
      ¬ field.separator.toList <+: following) : scheme.EndsBefore following := by
  refine ⟨noDigit, ?_⟩
  intro field member optional others same
  exact absurd ⟨others, same.symm⟩ (apart field member optional)

private theorem startsWithDigit_of_isRun {digits : List Char} (isRun : IsRun Char.isDigit digits)
    (following : List Char) : startsWithDigit (digits ++ following) = true := by
  cases digits with
  | nil => exact absurd rfl isRun.1
  | cons c digits =>
      have digit := isRun.2 c (List.mem_cons_self ..)
      simpa [startsWithDigit] using digit

namespace Scheme

variable {scheme : Scheme} {version : Version}

private theorem optional_of_countP_le {index : Nat} {label : String × String}
    (behind : (scheme.body.keptCaptures version (version.cut scheme) 1).countP
      Option.isSome ≤ index)
    (labelled : (Piece.labels scheme.body.pieces)[index]? = some label) :
    ∃ field ∈ scheme.fields, field.required = false ∧ field.separator = label.1 := by
  have inside := (List.getElem?_eq_some_iff.mp labelled).1
  rw [scheme.body.length_labels] at inside
  have enough := scheme.body.min_cut_le_countP version (version.cut scheme) 1
  have labels : scheme.fields.map Field.label =
      ("", scheme.lead) :: Piece.labels scheme.body.pieces :=
    scheme.whole.map_label_fields 0
  have present : (scheme.fields.map Field.label)[index + 1]? = some label := by
    rw [labels]
    exact labelled
  rw [List.getElem?_map] at present
  obtain ⟨field, found, rfl⟩ := Option.map_eq_some_iff.mp present
  have passed : version.cut scheme ≤ index + 1 := by omega
  have droppable := Version.droppable_of_cut_le passed found
  refine ⟨field, List.mem_of_getElem? found, ?_, rfl⟩
  simp only [Version.droppable, Bool.and_eq_true, Bool.not_eq_true'] at droppable
  exact droppable.1

/-- What ends a version does not start with the segment of a field behind the kept
ones. -/
private theorem EndsBefore.not_segment {captures : List (Option (List Char))}
    {following rest : List Char} {part : List Char × List Char}
    {more : List (List Char × List Char)} (endsBefore : scheme.EndsBefore following)
    (keptCount : (segments (Piece.labels scheme.body.pieces)
        (scheme.body.keptCaptures version (version.cut scheme) 1)).length =
      (scheme.body.keptCaptures version (version.cut scheme) 1).countP Option.isSome)
    (whole : segments (Piece.labels scheme.body.pieces) captures =
      segments (Piece.labels scheme.body.pieces)
        (scheme.body.keptCaptures version (version.cut scheme) 1) ++ part :: more)
    (isSegment : IsSegment part)
    (follows : following = segmentsText (part :: more) ++ rest) : False := by
  have present : (segments (Piece.labels scheme.body.pieces) captures)[
      (segments (Piece.labels scheme.body.pieces)
        (scheme.body.keptCaptures version (version.cut scheme) 1)).length]? =
      some part := by
    rw [whole, List.getElem?_append_right (Nat.le_refl _), Nat.sub_self]
    rfl
  obtain ⟨index, label, behind, labelled, marks⟩ := getElem?_segments _ _ _ _ present
  rw [keptCount] at behind
  obtain ⟨field, member, optional, separatorEq⟩ := optional_of_countP_le behind labelled
  have noDigit := endsBefore.2 field member optional
    (part.2 ++ (segmentsText more ++ rest)) (by
      rw [follows, separatorEq, ← marks]
      simp [segmentsText])
  rw [startsWithDigit_of_isRun isSegment.2] at noDigit
  cases noDigit

/-- A derivation at the start of a rendered version and the text after it, whose
choice is preferred to the kept groups, is the one that was rendered. -/
theorem WellFormed.captures_eq_kept (formed : scheme.WellFormed) {choice : List Bool}
    {captures : List (Option (List Char))} {consumed rest following : List Char}
    (derivation : scheme.whole.Derives choice captures consumed)
    (preferred : Prefers choice (scheme.whole.keptChoice (version.cut scheme) 0))
    (ended : startsWithDigit rest = false) (endsBefore : scheme.EndsBefore following)
    (same : consumed ++ rest =
      scheme.whole.keptText version (version.cut scheme) 0 ++ following) :
    captures = scheme.whole.keptCaptures version (version.cut scheme) 0 ∧
      rest = following := by
  cases derivation with
  | @field _ _ _ digits choice captures text isRun derivation =>
      have kept := scheme.body.derives_kept version (version.cut scheme) 1
      have split : digits ++ (text ++ rest) = version.digits scheme.lead ++
          (scheme.body.keptText version (version.cut scheme) 1 ++ following) := by
        simpa [Scheme.whole, Body.keptText] using same
      obtain ⟨rfl, texts⟩ := digits_append_inj isRun (version.isRun_digits scheme.lead)
        (derivation.startsWithDigit_append formed.body ended)
        (kept.startsWithDigit_append formed.body endsBefore.1) split
      have leaner : Leaner (scheme.body.keptCaptures version (version.cut scheme) 1) captures :=
        derivation.leaner formed.body preferred
      have length : (Piece.labels scheme.body.pieces).length = captures.length := by
        rw [scheme.body.length_labels, derivation.length_captures]
      have keptLength : (Piece.labels scheme.body.pieces).length =
          (scheme.body.keptCaptures version (version.cut scheme) 1).length := by
        rw [scheme.body.length_labels, kept.length_captures]
      have count := length_segments _ _ length
      have keptCount := length_segments _ _ keptLength
      -- With no segment left on either side both derivations have the same fields.
      have settled (equal : segments (Piece.labels scheme.body.pieces) captures =
          segments (Piece.labels scheme.body.pieces)
            (scheme.body.keptCaptures version (version.cut scheme) 1)) :
          some (version.digits scheme.lead) :: captures =
            scheme.whole.keptCaptures version (version.cut scheme) 0 := by
        have fields := leaner.2 (by rw [← count, ← keptCount, equal])
        rw [captures_eq_of_segments_eq _ _ _ length fields.symm equal]
        rfl
      rw [← derivation.segmentsText_eq, ← kept.segmentsText_eq] at texts
      rcases segments_comparable _ _ _ _ (derivation.isSegment formed.body)
          (kept.isSegment formed.body) ended endsBefore.1 texts with
        ⟨more, whole, follows⟩ | ⟨more, whole, follows⟩
      · have none : more = [] := by
          have lengths := congrArg List.length whole
          rw [List.length_append, count, keptCount] at lengths
          have fewer := leaner.1
          exact List.eq_nil_of_length_eq_zero (by omega)
        subst none
        rw [List.append_nil] at whole
        exact ⟨settled whole.symm, follows⟩
      · cases more with
        | nil =>
            rw [List.append_nil] at whole
            exact ⟨settled whole, follows.symm⟩
        | cons part more =>
            have isSegment := derivation.isSegment formed.body part
              (by rw [whole]; simp)
            exact (endsBefore.not_segment keptCount whole isSegment follows).elim

theorem WellFormed.readWhole?_render (formed : scheme.WellFormed) (version : Version) :
    scheme.readWhole? (version.render scheme).toList =
      some (scheme.whole.keptCaptures version (version.cut scheme) 0) := by
  have kept := scheme.whole.derives_kept version (version.cut scheme) 0
  rw [version.toList_render formed]
  cases read : scheme.readWhole?
      (scheme.whole.keptText version (version.cut scheme) 0) with
  | none =>
      exact absurd ⟨_, _, kept⟩ ((formed.readWhole?_eq_none_iff _).mp read)
  | some captures =>
      obtain ⟨choice, derivation, preferred⟩ := formed.chosen_of_readWhole? read
      have settled := formed.captures_eq_kept derivation (preferred _ _ kept)
        (show startsWithDigit [] = false from rfl) scheme.endsBefore_nil rfl
      rw [settled.1]

end Scheme

namespace Version

private theorem map_captureValue_kept (scheme : Scheme) (version : Version) :
    (scheme.whole.keptCaptures version (version.cut scheme) 0).map captureValue =
      (scheme.fields.map Field.name).map version.value := by
  have names : scheme.fields.map Field.name = Piece.names scheme.whole.pieces :=
    scheme.whole.map_name_fields 0
  rw [names]
  refine scheme.whole.map_captureValue_keptCaptures version _ 0 ?_
  intro index name behind present
  rw [Nat.zero_add] at behind
  exact value_eq_zero_of_cut_le behind (by rw [names, present])

theorem ofLiteral_of_render {scheme : Scheme} (formed : scheme.WellFormed)
    (version : Version) :
    ∃ read, ofLiteral scheme (version.render scheme) = .ok read ∧
      read.entries = scheme.fields.map fun field => (field.name, version.value field.name) := by
  have chosen := formed.chosen_of_readWhole? (formed.readWhole?_render version)
  obtain ⟨read, accepted, entries⟩ := ofLiteral_of_chosen formed chosen
    (scheme.whole.captureNumber_keptCaptures_lt version _ 0)
  refine ⟨read, accepted, ?_⟩
  rw [entries, map_captureValue_kept, List.map_map, List.zip_map']
  rfl

/-- Versions whose fields are those of one list are equal when they give them the
same numbers. -/
private theorem beq_of_entries {read version : Version} {names : List String}
    (entries : read.entries = names.map fun name => (name, version.value name))
    (fields : ∀ name, name ∈ version.entries.map Prod.fst ↔ name ∈ names) :
    (read == version) = true := by
  have readNames : read.entries.map Prod.fst = names := by
    rw [entries, List.map_map]
    exact List.map_id names
  rw [beq_iff]
  constructor
  · have sameNames : (read.entries.map Prod.fst).Perm (version.entries.map Prod.fst) := by
      refine (List.perm_ext_iff_of_nodup read.distinct version.distinct).mpr ?_
      intro name
      rw [readNames, fields]
    have lengths := sameNames.length_eq
    rwa [List.length_map, List.length_map] at lengths
  · intro entry member
    rw [entries] at member
    obtain ⟨name, known, rfl⟩ := List.mem_map.mp member
    obtain ⟨⟨found, value⟩, present, rfl⟩ := List.mem_map.mp ((fields name).mpr known)
    have known := version.get?_of_mem found value present
    simp [Version.value, known]

/-- Every version can be read back from its literal. What is read has the fields
of the scheme in their order, and the numbers that the version gives them; if
these are the fields of the version, the two are equal. -/
theorem ofLiteral_render {definition : String} {scheme : Scheme}
    (compiled : Scheme.compile definition = .ok scheme) (version : Version) :
    ∃ read, ofLiteral scheme (version.render scheme) = .ok read ∧
      read.entries =
        scheme.fields.map (fun field => (field.name, version.value field.name)) ∧
      ((∀ name, name ∈ version.entries.map Prod.fst ↔
          name ∈ scheme.fields.map Field.name) →
        (read == version) = true) := by
  have formed := Scheme.wellFormed_of_compile compiled
  obtain ⟨read, accepted, entries⟩ := ofLiteral_of_render formed version
  refine ⟨read, accepted, entries, ?_⟩
  intro fields
  refine beq_of_entries ?_ fields
  rw [entries, List.map_map]
  rfl

/-- A version that lacks fields of the scheme, has one of its own, and sets them in
another order. -/
theorem ofLiteral_render_unordered :
    Scheme.compile "a[.b][.c-d]" =
      .ok ⟨"a", .group (.field "." "b" .done)
        (.group (.field "." "c" (.field "-" "d" .done)) .done)⟩ ∧
    ∃ read,
      ofLiteral ⟨"a", .group (.field "." "b" .done)
        (.group (.field "." "c" (.field "-" "d" .done)) .done)⟩ "1.0.0-4" = .ok read ∧
      read.entries = [("a", 1), ("b", 0), ("c", 0), ("d", 4)] := by
  have compiled : Scheme.compile "a[.b][.c-d]" =
      .ok ⟨"a", .group (.field "." "b" .done)
        (.group (.field "." "c" (.field "-" "d" .done)) .done)⟩ := by rfl
  obtain ⟨read, accepted, entries, _⟩ :=
    ofLiteral_render compiled (ofPairs [("d", 4), ("e", 9), ("a", 1)])
  exact ⟨compiled, read, accepted, entries⟩

end Version

end Versioning
