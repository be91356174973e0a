import Versioning.Proofs.Version.Canonical

/-!
Literals of schemes whose groups form one chain.

In such a scheme the required fields come first, and each group behind them holds one field
and at most the next group. So a literal spells some of the first fields and none behind them,
and its text alone tells which. It is rendered as it is written if the cut falls where it ends,
that is, if it does not end with a zero that could be left out.
-/

namespace Versioning

namespace Body

/-! ### Chains of groups -/

inductive Link : Body → Prop
  | last (separator name : String) : Link (.field separator name .done)
  | nest (separator name : String) {inner : Body} :
      inner.Link → Link (.field separator name (.group inner .done))

/-- Some fields, and behind them at most one group, with which a chain starts. -/
inductive Chain : Body → Prop
  | done : Chain .done
  | field (separator name : String) {rest : Body} :
      rest.Chain → Chain (.field separator name rest)
  | group {inner : Body} : inner.Link → Chain (.group inner .done)

def leading : Body → Nat
  | .done => 0
  | .field _ _ rest => rest.leading + 1
  | .group _ _ => 0

private theorem leading_le_fieldCount (body : Body) : body.leading ≤ body.fieldCount := by
  induction body with
  | done => exact Nat.le_refl 0
  | field separator name rest ih => exact Nat.succ_le_succ ih
  | group inner rest => exact Nat.zero_le _

private theorem leading_eq_fieldCount {body : Body} (flat : body.groupCount = 0) :
    body.leading = body.fieldCount := by
  induction body with
  | done => rfl
  | field separator name rest ih => exact congrArg (· + 1) (ih flat)
  | group inner rest => cases flat

private theorem depth_le_of_mem_fields {body : Body} {depth : Nat} {field : Field}
    (known : field ∈ body.fields depth) : depth ≤ field.depth := by
  induction body generalizing depth with
  | done => cases known
  | field separator name rest ih =>
      rcases List.mem_cons.mp known with same | later
      · exact Nat.le_of_eq (congrArg Field.depth same).symm
      · exact ih later
  | group inner rest ihInner ihRest =>
      rcases List.mem_append.mp known with inside | behind
      · exact Nat.le_of_succ_le (ihInner inside)
      · exact ihRest behind

private theorem Chain.depth_eq_iff {body : Body} (chain : body.Chain) {depth index : Nat}
    {field : Field} (present : (body.fields depth)[index]? = some field) :
    field.depth = depth ↔ index < body.leading := by
  induction chain generalizing index with
  | done => cases present
  | field separator name chain ih =>
      cases index with
      | zero =>
          cases present
          exact ⟨fun _ => Nat.succ_pos _, fun _ => rfl⟩
      | succ index => exact (ih present).trans Nat.succ_lt_succ_iff.symm
  | @group inner link =>
      have known := List.mem_of_getElem? present
      rw [Body.fields, Body.fields, List.append_nil] at known
      have deeper := depth_le_of_mem_fields known
      rw [leading]
      omega

/-! ### What is shown -/

private theorem Link.shown_iff {body : Body} (link : body.Link) {cut next index : Nat}
    (above : next ≤ index) (below : index < next + body.fieldCount) :
    Shown (body.groups next) cut index ↔ index = next ∨ index < cut := by
  induction link generalizing next with
  | last separator name =>
      have first : index = next := by
        rw [fieldCount, fieldCount] at below
        omega
      exact ⟨fun _ => .inl first, fun _ => shown_of_not_mem (List.forall_mem_nil _)⟩
  | @nest separator name inner link ih =>
      rw [fieldCount, fieldCount, fieldCount] at below
      by_cases first : index = next
      · refine ⟨fun _ => .inl first, fun _ => shown_of_not_mem ?_⟩
        intro group known inside
        have behind : group ∈ (Body.group inner .done).groups (next + 1) := known
        have bounds := bounds_of_mem_groups behind inside
        omega
      · have inside : next + 1 ≤ index := by omega
        have within : index < next + 1 + inner.fieldCount := by omega
        rw [groups, shown_inside_iff inside within, ih inside within]
        omega

/-- The fields before the first group are always shown, and those behind it up to the cut. -/
theorem Chain.shown_iff {body : Body} (chain : body.Chain) {cut next index : Nat}
    (above : next ≤ index) (below : index < next + body.fieldCount) :
    Shown (body.groups next) cut index ↔ index < next + body.leading ∨ index < cut := by
  induction chain generalizing next with
  | done =>
      rw [fieldCount] at below
      omega
  | @field separator name rest chain ih =>
      rw [fieldCount] at below
      rw [groups, leading]
      by_cases first : index = next
      · have outside : ∀ group ∈ rest.groups (next + 1), index ∉ group := by
          intro group known inside
          have bounds := bounds_of_mem_groups known inside
          omega
        refine ⟨fun _ => .inl ?_, fun _ => shown_of_not_mem outside⟩
        omega
      · rw [ih (by omega) (by omega)]
        omega
  | @group inner link =>
      have within : index < next + inner.fieldCount := below
      rw [shown_inside_iff above within, link.shown_iff above within, leading]
      omega

/-! ### What is captured -/

/-- The first fields were captured, and none behind them. -/
def FrontRow (captures : List (Option (List Char))) : Prop :=
  ∃ (digits : List (List Char)) (count : Nat),
    captures = digits.map some ++ List.replicate count none

private theorem FrontRow.cons {captures : List (Option (List Char))} (row : FrontRow captures)
    (digits : List Char) : FrontRow (some digits :: captures) := by
  obtain ⟨others, count, same⟩ := row
  exact ⟨digits :: others, count, congrArg (some digits :: ·) same⟩

private theorem frontRow_replicate (count : Nat) : FrontRow (List.replicate count none) :=
  ⟨[], count, rfl⟩

private theorem FrontRow.eq {captures : List (Option (List Char))} (row : FrontRow captures) :
    captures = (captures.filterMap id).map some ++
      List.replicate (captures.length - (captures.filterMap id).length) none := by
  obtain ⟨digits, count, same⟩ := row
  have kept : captures.filterMap id = digits := by
    rw [same, List.filterMap_append, List.filterMap_map, List.filterMap_replicate_of_none rfl,
      List.append_nil]
    exact List.filterMap_some
  have length : captures.length = digits.length + count := by
    rw [same, List.length_append, List.length_map, List.length_replicate]
  rw [kept, length, Nat.add_sub_cancel_left]
  exact same

private theorem Derives.frontRow_group {inner : Body} {choice : List Bool}
    {captures : List (Option (List Char))} {text : List Char}
    (derivation : (Body.group inner .done).Derives choice captures text)
    (row : ∀ {choice captures text}, inner.Derives choice captures text → FrontRow captures) :
    FrontRow captures := by
  cases derivation with
  | included derivationInner derivation =>
      cases derivation with
      | done =>
          rw [List.append_nil]
          exact row derivationInner
  | leftOut derivation =>
      cases derivation with
      | done =>
          rw [List.append_nil]
          exact frontRow_replicate _

private theorem Link.frontRow {body : Body} (link : body.Link) {choice : List Bool}
    {captures : List (Option (List Char))} {text : List Char}
    (derivation : body.Derives choice captures text) : FrontRow captures := by
  induction link generalizing choice captures text with
  | last separator name =>
      cases derivation with
      | field isRun derivation =>
          cases derivation with
          | done => exact (frontRow_replicate 0).cons _
  | nest separator name link ih =>
      cases derivation with
      | field isRun derivation => exact (derivation.frontRow_group ih).cons _

private theorem Chain.frontRow {body : Body} (chain : body.Chain) {choice : List Bool}
    {captures : List (Option (List Char))} {text : List Char}
    (derivation : body.Derives choice captures text) : FrontRow captures := by
  induction chain generalizing choice captures text with
  | done =>
      cases derivation with
      | done => exact frontRow_replicate 0
  | field separator name chain ih =>
      cases derivation with
      | field isRun derivation => exact (ih derivation).cons _
  | group link => exact derivation.frontRow_group link.frontRow

private theorem Derives.leading_le {body : Body} {choice : List Bool}
    {captures : List (Option (List Char))} {text : List Char}
    (derivation : body.Derives choice captures text) :
    body.leading ≤ (captures.filterMap id).length := by
  induction derivation with
  | done => exact Nat.zero_le _
  | field isRun derivation ih => exact Nat.succ_le_succ ih
  | included derivationInner derivation ihInner ih => exact Nat.zero_le _
  | leftOut derivation ih => exact Nat.zero_le _

end Body

/-! ### Literals of a chain -/

namespace Scheme

def SpellsOptional (scheme : Scheme) (captures : List (Option (List Char))) : Prop :=
  ∃ field digits, (field, some digits) ∈ scheme.fields.zip captures ∧ field.required = false

section Spelled

variable {scheme : Scheme} {choice : List Bool} {captures : List (Option (List Char))}
  {text : List Char} (formed : scheme.WellFormed) (chain : scheme.whole.Chain)
  (derivation : scheme.whole.Derives choice captures text)

include chain in
private theorem required_iff_of_chain {index : Nat} {field : Field}
    (present : scheme.fields[index]? = some field) :
    field.required = true ↔ index < scheme.whole.leading := by
  rw [← chain.depth_eq_iff present, Field.required, beq_iff_eq]

include formed chain derivation

/-- The numbers of the text are those of the first fields, so all its derivations capture the
same. -/
private theorem captures_of_chain :
    captures = (numerals text).map some ++
      List.replicate (scheme.fields.length - (numerals text).length) none := by
  rw [formed.numerals_of_derives derivation, scheme.length_fields, ← derivation.length_captures]
  exact (chain.frontRow derivation).eq

private theorem getElem?_captures_of_chain {index : Nat} (within : index < (numerals text).length) :
    captures[index]? = (numerals text)[index]?.map some := by
  rw [captures_of_chain formed chain derivation,
    List.getElem?_append_left (by rwa [List.length_map]), List.getElem?_map]

private theorem captured_iff_of_chain {index : Nat} :
    (∃ digits, captures[index]? = some (some digits)) ↔ index < (numerals text).length := by
  by_cases within : index < (numerals text).length
  · refine ⟨fun _ => within, fun _ => ⟨(numerals text)[index], ?_⟩⟩
    rw [getElem?_captures_of_chain formed chain derivation within,
      List.getElem?_eq_getElem within, Option.map_some]
  · refine ⟨fun captured => ?_, fun before => absurd before within⟩
    obtain ⟨digits, captured⟩ := captured
    have behind : ((numerals text).map some).length ≤ index := by
      rw [List.length_map]
      exact Nat.not_lt.mp within
    rw [captures_of_chain formed chain derivation, List.getElem?_append_right behind] at captured
    cases (List.mem_replicate.mp (List.mem_of_getElem? captured)).2

omit chain in
private theorem length_numerals_le : (numerals text).length ≤ scheme.fields.length := by
  rw [formed.numerals_of_derives derivation, scheme.length_fields, ← derivation.length_captures]
  exact List.length_filterMap_le id captures

omit chain in
private theorem leading_le_length_numerals : scheme.whole.leading ≤ (numerals text).length := by
  rw [formed.numerals_of_derives derivation]
  exact derivation.leading_le

theorem spellsOptional_iff_of_chain :
    scheme.SpellsOptional captures ↔ scheme.whole.leading < (numerals text).length := by
  constructor
  · intro spells
    obtain ⟨field, digits, member, optional⟩ := spells
    obtain ⟨index, found⟩ := List.mem_iff_getElem?.mp member
    obtain ⟨present, captured⟩ := List.getElem?_zip_eq_some.mp found
    have spelled := (captured_iff_of_chain formed chain derivation).mp ⟨digits, captured⟩
    have behind : ¬ index < scheme.whole.leading := by
      rw [← required_iff_of_chain chain present, optional]
      exact Bool.false_ne_true
    omega
  · intro longer
    obtain ⟨digits, captured⟩ := (captured_iff_of_chain formed chain derivation).mpr longer
    have within := Nat.lt_of_lt_of_le longer (length_numerals_le formed derivation)
    have present := List.getElem?_eq_getElem within
    refine ⟨_, digits, List.mem_of_getElem? (List.getElem?_zip_eq_some.mpr ⟨present, captured⟩), ?_⟩
    rw [← Bool.not_eq_true, required_iff_of_chain chain present]
    exact Nat.lt_irrefl _

theorem spellsShown_iff_of_chain {cut : Nat} (least : scheme.whole.leading ≤ cut)
    (most : cut ≤ scheme.fields.length) :
    scheme.SpellsShown cut captures ↔ (numerals text).length = cut := by
  have shown (index : Nat) (within : index < scheme.fields.length) :
      Shown scheme.groups cut index ↔ index < cut := by
    have below : index < 0 + scheme.whole.fieldCount := by
      rwa [Nat.zero_add, ← scheme.length_fields]
    rw [groups, chain.shown_iff (Nat.zero_le index) below]
    omega
  have longest := length_numerals_le formed derivation
  constructor
  · intro spells
    have agree (index : Nat) (within : index < scheme.fields.length) :
        index < (numerals text).length ↔ index < cut := by
      rw [← captured_iff_of_chain formed chain derivation, spells index within,
        shown index within]
    -- If one of them were smaller than the other, they would disagree there.
    apply Nat.le_antisymm
    · apply Nat.le_of_not_lt
      intro less
      exact Nat.lt_irrefl cut ((agree cut (by omega)).mp less)
    · apply Nat.le_of_not_lt
      intro less
      exact Nat.lt_irrefl _ ((agree (numerals text).length (by omega)).mpr less)
  · intro same index within
    rw [captured_iff_of_chain formed chain derivation, shown index within, same]

end Spelled

end Scheme

namespace Version

private theorem CutAt.le_iff {scheme : Scheme} {version : Version} {cut : Nat}
    (cutAt : version.CutAt scheme cut) {index : Nat} :
    cut ≤ index ↔ ∀ field ∈ scheme.fields.drop index,
      field.required = false ∧ version.value field.name = 0 := by
  constructor
  · intro behind field member
    exact cutAt.dropped field (List.drop_subset_drop_left scheme.fields behind member)
  · exact cutAt.maximal index

section Cut

variable {scheme : Scheme} {version : Version} {cut : Nat} {choice : List Bool}
  {captures : List (Option (List Char))} {text : List Char}
  (chain : scheme.whole.Chain) (cutAt : version.CutAt scheme cut)

include chain cutAt

/-- A required field is never dropped. -/
private theorem CutAt.leading_le : scheme.whole.leading ≤ cut := by
  apply Nat.le_of_not_lt
  intro before
  have within : cut < scheme.fields.length := by
    rw [scheme.length_fields]
    exact Nat.lt_of_lt_of_le before scheme.whole.leading_le_fieldCount
  have present := List.getElem?_eq_getElem within
  have required := (Scheme.required_iff_of_chain chain present).mpr before
  have dropped := cutAt.dropped _ (List.mem_of_getElem? (by
    rw [List.getElem?_drop, Nat.add_zero]
    exact present))
  rw [dropped.1] at required
  cases required

variable (formed : scheme.WellFormed)
  (derivation : scheme.whole.Derives choice captures text)
  (readFrom : version.ReadFrom scheme captures)

include formed derivation readFrom

omit cutAt in
/-- From the end of the literal on, all fields are zero and may be left out. -/
private theorem droppable_behind_numerals {field : Field}
    (member : field ∈ scheme.fields.drop (numerals text).length) :
    field.required = false ∧ version.value field.name = 0 := by
  obtain ⟨index, present⟩ := List.mem_iff_getElem?.mp member
  rw [List.getElem?_drop] at present
  have least := Scheme.leading_le_length_numerals formed derivation
  constructor
  · rw [← Bool.not_eq_true, Scheme.required_iff_of_chain chain present]
    omega
  · have inside : (numerals text).length + index < captures.length := by
      rw [derivation.length_captures, ← scheme.length_fields]
      exact (List.getElem?_eq_some_iff.mp present).choose
    have captured := List.getElem?_eq_getElem inside
    have number := readFrom.toNat_value present captured
    cases capture : captures[(numerals text).length + index] with
    | none =>
        rw [capture] at number
        exact UInt64.toNat_inj.mp number
    | some digits =>
        rw [capture] at captured
        have spelled := (Scheme.captured_iff_of_chain formed chain derivation).mp ⟨_, captured⟩
        omega

private theorem CutAt.le_length_numerals : cut ≤ (numerals text).length :=
  cutAt.maximal _ fun _ => droppable_behind_numerals chain formed derivation readFrom

/-- The cut lies before an optional field that is spelled last only if that is zero. -/
private theorem CutAt.lt_length_numerals_iff
    (longer : scheme.whole.leading < (numerals text).length)
    {last : List Char} (ends : (numerals text).getLast? = some last) :
    cut < (numerals text).length ↔ decimalValue last = 0 := by
  have longest := Scheme.length_numerals_le formed derivation
  have within : (numerals text).length - 1 < scheme.fields.length := by omega
  have present := List.getElem?_eq_getElem within
  have captured : captures[(numerals text).length - 1]? = some (some last) := by
    rw [Scheme.getElem?_captures_of_chain formed chain derivation (by omega),
      ← List.getLast?_eq_getElem?, ends, Option.map_some]
  have number := readFrom.toNat_value present captured
  have optional : scheme.fields[(numerals text).length - 1].required = false := by
    rw [← Bool.not_eq_true, Scheme.required_iff_of_chain chain present]
    omega
  have fields : scheme.fields.drop ((numerals text).length - 1) =
      scheme.fields[(numerals text).length - 1] :: scheme.fields.drop (numerals text).length := by
    rw [List.drop_eq_getElem_cons within, Nat.sub_add_cancel (by omega)]
  have before : cut < (numerals text).length ↔ cut ≤ (numerals text).length - 1 := by omega
  rw [before, cutAt.le_iff, fields, List.forall_mem_cons, optional, ← UInt64.toNat_inj, number]
  constructor
  · intro zeros
    exact zeros.1.2
  · intro zero
    exact ⟨⟨rfl, zero⟩, fun _ => droppable_behind_numerals chain formed derivation readFrom⟩

/-- The cut is where the literal ends, unless that ends with an optional zero. -/
private theorem CutAt.length_numerals_eq_iff :
    (numerals text).length = cut ↔
      (scheme.SpellsOptional captures →
        ∃ last, (numerals text).getLast? = some last ∧ decimalValue last ≠ 0) := by
  have least := cutAt.leading_le chain
  have most := cutAt.le_length_numerals chain formed derivation readFrom
  rw [Scheme.spellsOptional_iff_of_chain formed chain derivation]
  by_cases longer : scheme.whole.leading < (numerals text).length
  · have spelled : (numerals text).length - 1 < (numerals text).length := by omega
    have ends : (numerals text).getLast? = some (numerals text)[(numerals text).length - 1] := by
      rw [List.getLast?_eq_getElem?, List.getElem?_eq_getElem spelled]
    have early := cutAt.lt_length_numerals_iff chain formed derivation readFrom longer ends
    rw [ends]
    constructor
    · intro same _
      refine ⟨_, rfl, fun zero => ?_⟩
      have before := early.mpr zero
      omega
    · intro positive
      obtain ⟨last, same, positive⟩ := positive longer
      cases same
      have late : ¬ cut < (numerals text).length := fun before => positive (early.mp before)
      omega
  · refine ⟨fun _ spells => absurd spells longer, fun _ => ?_⟩
    omega

end Cut

/-- In a scheme whose groups form one chain, what a literal was read from is told by the literal
alone. It is rendered as it is written exactly if its numbers have no superfluous zeros in front
and, should it spell an optional field, its last number is not zero. -/
theorem render_eq_iff_of_chain {definition : String} {scheme : Scheme}
    (compiled : Scheme.compile definition = .ok scheme) (chain : scheme.body.Chain)
    {literal : String} {version : Version} (read : ofLiteral scheme literal = .ok version) :
    ∃ captures, scheme.Chosen literal.toList captures ∧
      (∀ choice others, scheme.whole.Derives choice others literal.toList →
        others = captures) ∧
      (version.render scheme = literal ↔
        (∀ digits ∈ numerals literal.toList, Unpadded digits) ∧
          (scheme.SpellsOptional captures →
            ∃ last, (numerals literal.toList).getLast? = some last ∧ decimalValue last ≠ 0)) ∧
      (scheme.body.groupCount = 0 →
        (version.render scheme = literal ↔
          ∀ digits ∈ numerals literal.toList, Unpadded digits)) := by
  have formed := Scheme.wellFormed_of_compile compiled
  have whole : scheme.whole.Chain := .field "" scheme.lead chain
  obtain ⟨captures, chosen, readFrom⟩ := readFrom_of_ofLiteral formed read
  obtain ⟨choice, derivation, _⟩ := id chosen
  have cutAt := cutAt_cut scheme version
  have canonical : version.render scheme = literal ↔
      (∀ digits ∈ numerals literal.toList, Unpadded digits) ∧
        (scheme.SpellsOptional captures →
          ∃ last, (numerals literal.toList).getLast? = some last ∧ decimalValue last ≠ 0) := by
    rw [formed.render_eq_iff chosen readFrom,
      Scheme.spellsShown_iff_of_chain formed whole derivation (cutAt.leading_le whole)
        cutAt.within,
      cutAt.length_numerals_eq_iff whole formed derivation readFrom]
  refine ⟨captures, chosen, ?_, canonical, ?_⟩
  · intro other others otherDerivation
    rw [Scheme.captures_of_chain formed whole otherDerivation,
      ← Scheme.captures_of_chain formed whole derivation]
  · intro flat
    have all : scheme.whole.leading = scheme.whole.fieldCount := Body.leading_eq_fieldCount flat
    have bare : ¬ scheme.SpellsOptional captures := by
      rw [Scheme.spellsOptional_iff_of_chain formed whole derivation, all, ← scheme.length_fields]
      exact Nat.not_lt.mpr (Scheme.length_numerals_le formed derivation)
    rw [canonical]
    exact ⟨And.left, fun unpadded => ⟨unpadded, fun spells => absurd spells bare⟩⟩

def nestedScheme : Scheme :=
  ⟨"a", .field "·" "b" (.group (.field "." "c" (.group (.field "-" "d" .done) .done)) .done)⟩

/-- A zero in front of another optional number is kept, and one at the end is not. -/
theorem render_eq_iff_of_chain_nested :
    Scheme.compile "a·b[.c[-d]]" = .ok nestedScheme ∧ nestedScheme.body.Chain ∧
    (∃ version, ofLiteral nestedScheme "10·0.0-7" = .ok version ∧
      version.render nestedScheme = "10·0.0-7") ∧
    ∃ version, ofLiteral nestedScheme "10·0.0" = .ok version ∧
      version.render nestedScheme ≠ "10·0.0" := by
  have compiled : Scheme.compile "a·b[.c[-d]]" = .ok nestedScheme := by rfl
  have chain : nestedScheme.body.Chain :=
    .field "·" "b" (.group (.nest "." "c" (.last "-" "d")))
  have longer : ofLiteral nestedScheme "10·0.0-7" =
      .ok (ofPairs [("a", 10), ("b", 0), ("c", 0), ("d", 7)]) := by rfl
  have shorter : ofLiteral nestedScheme "10·0.0" =
      .ok (ofPairs [("a", 10), ("b", 0), ("c", 0), ("d", 0)]) := by rfl
  refine ⟨compiled, chain, ⟨_, longer, ?_⟩, ⟨_, shorter, ?_⟩⟩
  · obtain ⟨captures, _, _, canonical, _⟩ := render_eq_iff_of_chain compiled chain longer
    exact canonical.mpr ⟨by decide, fun _ => ⟨['7'], by decide, by decide⟩⟩
  · obtain ⟨captures, chosen, _, canonical, _⟩ := render_eq_iff_of_chain compiled chain shorter
    have captured : nestedScheme.readWhole? "10·0.0".toList =
        some [some ['1', '0'], some ['0'], some ['0'], none] := by rfl
    have formed := Scheme.wellFormed_of_compile compiled
    rw [(formed.readWhole?_eq_some_iff _ _).mpr chosen] at captured
    cases captured
    intro same
    obtain ⟨last, ends, positive⟩ :=
      (canonical.mp same).2 ⟨⟨"c", ".", 1⟩, ['0'], by decide, by decide⟩
    have zero : some last = some ['0'] := ends.symm.trans (by decide)
    cases zero
    exact positive (by decide)

end Version

end Versioning
