import Versioning.Located
import Versioning.Proofs.Scheme.Leftmost
import Versioning.Proofs.Version.RoundTrip

/-!
Finding a rendered version again.

A version that was put into a text can be told from the text around it when no
digit stands before it, when the decorations cannot be taken for one another or for
a part of the text around them, and when nothing that follows the core reads as
more of it. It is then found exactly where it was put.
-/

namespace Versioning

/-! ### Finding the core -/

theorem Scheme.WellFormed.find?_render {scheme : Scheme} (formed : scheme.WellFormed)
    (version : Version) {before after : String}
    (noDigit : ∀ c ∈ before.toList, c.isDigit = false)
    (endsBefore : scheme.EndsBefore after.toList) :
    scheme.find? (before ++ version.render scheme ++ after) =
      some { before, core := version.render scheme, after } := by
  have kept := scheme.whole.derives_kept version (version.cut scheme) 0
  rw [← version.toList_render formed] at kept
  have possible := formed.reads_rest kept endsBefore.1
  have best := scheme.isBest_readFront ((version.render scheme).toList ++ after.toList)
  cases read : scheme.whole.readThen readRest
      ((version.render scheme).toList ++ after.toList) with
  | none =>
      rw [read] at best
      exact absurd possible (best _ _)
  | some reading =>
      rw [read] at best
      obtain ⟨choice, reads, preferred⟩ := best
      obtain ⟨consumed, derivation, textEq, ended⟩ := derives_of_reads_rest reads
      have settled := formed.captures_eq_kept derivation (preferred _ _ possible) ended
        endsBefore (by rw [← version.toList_render formed]; exact textEq.symm)
      rw [settled.2] at textEq
      have core := List.append_cancel_right textEq
      have split : (before ++ version.render scheme ++ after).toList =
          before.toList ++ (consumed ++ reading.rest) := by
        rw [settled.2, ← textEq, String.toList_append, String.toList_append,
          List.append_assoc]
      have readHere : scheme.whole.readThen readRest (consumed ++ reading.rest) =
          some reading := by
        rw [settled.2, ← textEq]
        exact read
      rw [find?_eq_some split readHere]
      · rw [settled.2, ← core]
        simp only [String.ofList_toList]
      · intro skipped more beforeEq filled
        refine readThen_eq_none readRest ?_
        cases more with
        | nil => exact absurd rfl filled
        | cons c more =>
            have other := noDigit c (by rw [beforeEq]; simp)
            simpa [startsWithDigit] using other

/-! ### Choosing the decorations -/

/-- Every text that fits, the empty one apart, is the chosen one or is listed behind it.
The empty text is never chosen. -/
def ListedFirst (fits : String → Prop) (texts : List String) (chosen : String) : Prop :=
  ∀ earlier text later, texts = earlier ++ text :: later → text ≠ "" → fits text →
    text = chosen ∨ (chosen ≠ "" ∧ chosen ∈ earlier)

private theorem ListedFirst.of_only {fits : String → Prop} {texts : List String} {chosen : String}
    (only : ∀ text ∈ texts, text ≠ "" → fits text → text = chosen) :
    ListedFirst fits texts chosen := by
  intro earlier text later split filled fit
  apply Or.inl
  apply only text ?_ filled fit
  rw [split]
  simp

section Choosing

variable {α : Type} {take : String → Option String} {pack : String → String → α}

def takeFilled (take : String → Option String) (pack : String → String → α) (text : String) :
    Option α :=
  if text.isEmpty then none else (take text).map (pack text)

theorem takeFilled_of_ne_empty {text : String} (filled : text ≠ "") :
    takeFilled take pack text = (take text).map (pack text) := by
  rw [takeFilled, if_neg]
  simpa using filled

private theorem takeFilled_eq_some {text : String} {result : α}
    (gives : takeFilled take pack text = some result) :
    text ≠ "" ∧ ∃ rest, take text = some rest ∧ result = pack text rest := by
  by_cases empty : text = ""
  · subst empty
    cases gives
  · rw [takeFilled_of_ne_empty empty] at gives
    obtain ⟨rest, takes, same⟩ := Option.map_eq_some_iff.mp gives
    exact ⟨empty, rest, takes, same.symm⟩

private theorem ListedFirst.findSome? {texts : List String} {chosen rest : String}
    (first : ListedFirst (fun text => (take text).isSome = true) texts chosen)
    (known : chosen ∈ texts ∨ chosen = "") (taken : take chosen = some rest) :
    texts.findSome? (takeFilled take pack) =
      if chosen = "" then none else some (pack chosen rest) := by
  cases searched : texts.findSome? (takeFilled take pack) with
  | none =>
      by_cases empty : chosen = ""
      · rw [if_pos empty]
      · have unread :=
          List.findSome?_eq_none_iff.mp searched chosen (known.resolve_right empty)
        rw [takeFilled_of_ne_empty empty, taken] at unread
        cases unread
  | some result =>
      obtain ⟨earlier, text, later, split, gives, unread⟩ :=
        List.findSome?_eq_some_iff.mp searched
      obtain ⟨filled, _, takes, _⟩ := takeFilled_eq_some gives
      have fits := Option.isSome_of_eq_some takes
      rcases first earlier text later split filled fits with same | ⟨some, listed⟩
      · subst same
        rw [takeFilled_of_ne_empty filled, taken] at gives
        rw [if_neg filled]
        exact gives.symm
      · have none := unread chosen listed
        rw [takeFilled_of_ne_empty some, taken] at none
        cases none

variable (take pack)

/-- A search for a decoration comes to the chosen one exactly when that one is listed
first. -/
private theorem getD_findSome?_iff (name : α → Option String) (nothing : α)
    (unnamed : name nothing = none)
    (named : ∀ text rest, name (pack text rest) = some text) {texts : List String}
    {chosen rest : String} (known : chosen ∈ texts ∨ chosen = "")
    (taken : take chosen = some rest) :
    (texts.findSome? (takeFilled take pack)).getD nothing =
        (if chosen = "" then nothing else pack chosen rest) ↔
      ListedFirst (fun text => (take text).isSome = true) texts chosen := by
  constructor
  · intro searched earlier text later split filled takes
    subst split
    have names := congrArg name searched
    rw [List.findSome?_append] at names
    cases before : earlier.findSome? (takeFilled take pack) with
    | some result =>
        obtain ⟨other, listed, gives⟩ := List.exists_of_findSome?_eq_some before
        obtain ⟨_, shorter, _, rfl⟩ := takeFilled_eq_some gives
        rw [before, Option.some_or, Option.getD_some, named] at names
        split at names
        · rw [unnamed] at names
          cases names
        · next some =>
            rw [named] at names
            cases names
            exact .inr ⟨some, listed⟩
    | none =>
        obtain ⟨shorter, takes⟩ := Option.isSome_iff_exists.mp takes
        rw [before, Option.none_or, List.findSome?_cons, takeFilled_of_ne_empty filled, takes]
          at names
        change name (pack text shorter) = _ at names
        rw [named] at names
        split at names
        · rw [unnamed] at names
          cases names
        · rw [named] at names
          exact .inl (Option.some.inj names)
  · intro first
    rw [first.findSome? known taken]
    split
    · rfl
    · rfl

end Choosing

theorem beforeSuffix?_append (before ending : String) :
    beforeSuffix? ending (before ++ ending) = some before := by
  have ends : ending.toList.isSuffixOf (before ++ ending).toList = true := by
    rw [String.toList_append]
    exact List.isSuffixOf_iff_suffix.mpr (List.suffix_append _ _)
  rw [beforeSuffix?, if_pos ends, String.toList_append, List.length_append,
    Nat.add_sub_cancel, List.take_left, String.ofList_toList]

theorem eq_append_of_beforeSuffix? {ending text shorter : String}
    (taken : beforeSuffix? ending text = some shorter) : shorter ++ ending = text := by
  unfold beforeSuffix? at taken
  split at taken
  · next ends =>
      obtain ⟨front, same⟩ := List.isSuffixOf_iff_suffix.mp ends
      rw [← same, List.length_append, Nat.add_sub_cancel, List.take_left] at taken
      cases taken
      apply String.toList_inj.mp
      rw [String.toList_append, String.toList_ofList, same]
  · cases taken

theorem isSome_beforeSuffix?_iff (ending text : String) :
    (beforeSuffix? ending text).isSome = true ↔ ending.toList <:+ text.toList := by
  unfold beforeSuffix?
  rw [← List.isSuffixOf_iff_suffix]
  split
  · next ends => simp [ends]
  · next ends => simp [ends]

theorem afterPrefix?_append (start after : String) :
    afterPrefix? start (start ++ after) = some after := by
  have starts : start.toList.isPrefixOf (start ++ after).toList = true := by
    rw [String.toList_append]
    exact List.isPrefixOf_iff_prefix.mpr (List.prefix_append _ _)
  rw [afterPrefix?, if_pos starts, String.toList_append, List.drop_left,
    String.ofList_toList]

theorem eq_append_of_afterPrefix? {start text shorter : String}
    (taken : afterPrefix? start text = some shorter) : start ++ shorter = text := by
  unfold afterPrefix? at taken
  split at taken
  · next starts =>
      obtain ⟨back, same⟩ := List.isPrefixOf_iff_prefix.mp starts
      rw [← same, List.drop_left] at taken
      cases taken
      apply String.toList_inj.mp
      rw [String.toList_append, String.toList_ofList, same]
  · cases taken

theorem isSome_afterPrefix?_iff (start text : String) :
    (afterPrefix? start text).isSome = true ↔ start.toList <+: text.toList := by
  unfold afterPrefix?
  rw [← List.isPrefixOf_iff_prefix]
  split
  · next starts => simp [starts]
  · next starts => simp [starts]

namespace Located

/-- Nothing is lost when a decoration is chosen. -/
theorem chooseFront_joined (texts : List String) (before : String) :
    (chooseFront texts before).1 ++ (chooseFront texts before).2.getD "" = before := by
  have result : chooseFront texts before = (texts.findSome? (takeFilled
      (fun text => beforeSuffix? text before) fun text shorter => (shorter, some text))).getD
        (before, none) := rfl
  rw [result]
  cases searched : texts.findSome? (takeFilled
      (fun text => beforeSuffix? text before) fun text shorter => (shorter, some text)) with
  | none => exact String.append_empty
  | some chosen =>
      obtain ⟨text, _, gives⟩ := List.exists_of_findSome?_eq_some searched
      obtain ⟨_, shorter, takes, rfl⟩ := takeFilled_eq_some gives
      exact eq_append_of_beforeSuffix? takes

theorem chooseBack_joined (texts : List String) (after : String) :
    (chooseBack texts after).1.getD "" ++ (chooseBack texts after).2 = after := by
  have result : chooseBack texts after = (texts.findSome? (takeFilled
      (fun text => afterPrefix? text after) fun text shorter => (some text, shorter))).getD
        (none, after) := rfl
  rw [result]
  cases searched : texts.findSome? (takeFilled
      (fun text => afterPrefix? text after) fun text shorter => (some text, shorter)) with
  | none => exact String.empty_append
  | some chosen =>
      obtain ⟨text, _, gives⟩ := List.exists_of_findSome?_eq_some searched
      obtain ⟨_, shorter, takes, rfl⟩ := takeFilled_eq_some gives
      exact eq_append_of_afterPrefix? takes

/-- The decoration that was put before the core is taken off again exactly when it is
listed first among those that the text ends with. -/
theorem chooseFront_append_iff {texts : List String} {before front : String}
    (known : front ∈ texts ∨ front = "") :
    chooseFront texts (before ++ front) =
        (before, if front = "" then none else some front) ↔
      ListedFirst (fun text => text.toList <:+ (before ++ front).toList) texts front := by
  have chosen := getD_findSome?_iff (fun text => beforeSuffix? text (before ++ front))
    (fun text shorter => (shorter, some text)) Prod.snd (before ++ front, none) rfl
    (fun _ _ => rfl) known (beforeSuffix?_append before front)
  simp only [isSome_beforeSuffix?_iff] at chosen
  rw [← chosen]
  by_cases empty : front = ""
  · rw [if_pos empty, if_pos empty, empty, String.append_empty]
    rfl
  · rw [if_neg empty, if_neg empty]
    rfl

theorem chooseBack_append_iff {texts : List String} {back after : String}
    (known : back ∈ texts ∨ back = "") :
    chooseBack texts (back ++ after) = (if back = "" then none else some back, after) ↔
      ListedFirst (fun text => text.toList <+: (back ++ after).toList) texts back := by
  have chosen := getD_findSome?_iff (fun text => afterPrefix? text (back ++ after))
    (fun text shorter => (some text, shorter)) Prod.fst (none, back ++ after) rfl
    (fun _ _ => rfl) known (afterPrefix?_append back after)
  simp only [isSome_afterPrefix?_iff] at chosen
  rw [← chosen]
  by_cases empty : back = ""
  · rw [if_pos empty, if_pos empty, empty, String.empty_append]
    rfl
  · rw [if_neg empty, if_neg empty]
    rfl

end Located

/-! ### Finding a decorated version -/

theorem Scheme.locate_of_find? {scheme : Scheme} (rules : List Rule) {text : String}
    {found : Occurrence} (searched : scheme.find? text = some found) :
    scheme.locate rules text =
      .ok {
        before := (Located.chooseFront (rules.filterMap Rule.front) found.before).1
        front := (Located.chooseFront (rules.filterMap Rule.front) found.before).2
        core := found.core
        back := (Located.chooseBack (rules.filterMap Rule.back) found.after).1
        after := (Located.chooseBack (rules.filterMap Rule.back) found.after).2 } := by
  rw [locate, searched]

theorem Scheme.locate_of_find?_eq_none {scheme : Scheme} (rules : List Rule) {text : String}
    (nowhere : scheme.find? text = none) : scheme.locate rules text = .error .noMatch := by
  rw [locate, nowhere]

/-- A version stands in its text between the texts on either side of it. -/
theorem Scheme.joined_of_locate {scheme : Scheme} {rules : List Rule} {text : String}
    {located : Located} (locates : scheme.locate rules text = .ok located) :
    located.before ++ located.literal ++ located.after = text := by
  cases searched : scheme.find? text with
  | none =>
      rw [locate_of_find?_eq_none rules searched] at locates
      cases locates
  | some found =>
      rw [locate_of_find? rules searched] at locates
      cases locates
      have front := Located.chooseFront_joined (rules.filterMap Rule.front) found.before
      have back := Located.chooseBack_joined (rules.filterMap Rule.back) found.after
      calc
        _ = (Located.chooseFront (rules.filterMap Rule.front) found.before).1 ++
              (Located.chooseFront (rules.filterMap Rule.front) found.before).2.getD "" ++
              found.core ++
              ((Located.chooseBack (rules.filterMap Rule.back) found.after).1.getD "" ++
                (Located.chooseBack (rules.filterMap Rule.back) found.after).2) := by
          simp only [Located.literal, String.append_assoc]
        _ = found.before ++ found.core ++ found.after := by rw [front, back]
        _ = text := text_of_find? searched

structure Outcome.DecoratedBy (outcome : Outcome) (rules : List Rule) : Prop where
  front : ∀ front ∈ outcome.front, front ∈ rules.filterMap Rule.front
  back : ∀ back ∈ outcome.back, back ∈ rules.filterMap Rule.back

theorem Outcome.DecoratedBy.of_applyRules {scheme : Scheme} {rules applied : List Rule}
    {version : Version} {outcome : Outcome} (known : ∀ rule ∈ applied, rule ∈ rules)
    (done : version.applyRules scheme applied = .ok outcome) : outcome.DecoratedBy rules := by
  obtain ⟨cleared, _, rest⟩ := bind_eq_ok.mp done
  obtain ⟨raised, _, same⟩ := bind_eq_ok.mp rest
  have outcomeEq := pure_eq_ok.mp same
  subst outcomeEq
  constructor
  · intro front member
    obtain ⟨rule, isApplied, text⟩ := List.mem_filterMap.mp (List.mem_of_getLast? member)
    exact List.mem_filterMap.mpr ⟨rule, known rule isApplied, text⟩
  · intro back member
    obtain ⟨rule, isApplied, text⟩ := List.mem_filterMap.mp (List.mem_of_getLast? member)
    exact List.mem_filterMap.mpr ⟨rule, known rule isApplied, text⟩

/-- Decorations that cannot be taken for one another, nor for a version. -/
structure DecorationsApart (rules : List Rule) : Prop where
  frontDigit : ∀ front ∈ rules.filterMap Rule.front, ∀ c ∈ front.toList, c.isDigit = false
  front : ∀ front ∈ rules.filterMap Rule.front, ∀ other ∈ rules.filterMap Rule.front,
    front ≠ "" → front.toList <:+ other.toList → front = other
  back : ∀ back ∈ rules.filterMap Rule.back, ∀ other ∈ rules.filterMap Rule.back,
    back ≠ "" → back.toList <+: other.toList → back = other

/-- Texts between which a decorated version can be told from what surrounds it. -/
structure Scheme.Surrounds (scheme : Scheme) (rules : List Rule) (before after : String) :
    Prop where
  beforeDigit : ∀ c ∈ before.toList, c.isDigit = false
  front : ∀ front ∈ rules.filterMap Rule.front, front ≠ "" → ¬ front.toList <:+ before.toList
  back : ∀ back ∈ rules.filterMap Rule.back, back ≠ "" → ¬ back.toList <+: after.toList
  endsBefore : ∀ back, back ∈ rules.filterMap Rule.back ∨ back = "" →
    scheme.EndsBefore (back ++ after).toList

theorem noDigit_of_all {text : String} (all : text.toList.all (! ·.isDigit) = true) :
    ∀ c ∈ text.toList, c.isDigit = false := by
  intro c member
  have other := List.all_eq_true.mp all c member
  simpa using other

theorem getD_filled (text : String) :
    (if text = "" then none else some text).getD "" = text := by
  split
  · next empty => exact empty.symm
  · rfl

theorem getD_known {decoration : Option String} {texts : List String}
    (known : ∀ text ∈ decoration, text ∈ texts) :
    decoration.getD "" ∈ texts ∨ decoration.getD "" = "" := by
  cases decoration with
  | none => exact .inr rfl
  | some text => exact .inl (known text rfl)

private theorem DecorationsApart.front_only {rules : List Rule} (apart : DecorationsApart rules)
    {before front : String} (known : front ∈ rules.filterMap Rule.front ∨ front = "")
    (noFront : ∀ front ∈ rules.filterMap Rule.front, front ≠ "" →
      ¬ front.toList <:+ before.toList) :
    ∀ text ∈ rules.filterMap Rule.front, text ≠ "" →
      text.toList <:+ (before ++ front).toList → text = front := by
  intro text member filled ends
  rw [String.toList_append] at ends
  rcases known with frontMember | none
  · by_cases empty : front = ""
    · rw [empty, String.toList_empty, List.append_nil] at ends
      exact absurd ends (noFront text member filled)
    · rcases List.suffix_or_suffix_of_suffix ends (List.suffix_append _ _) with inside | around
      · exact apart.front text member front frontMember filled inside
      · exact (apart.front front frontMember text member empty around).symm
  · rw [none, String.toList_empty, List.append_nil] at ends
    exact absurd ends (noFront text member filled)

private theorem DecorationsApart.back_only {rules : List Rule} (apart : DecorationsApart rules)
    {after back : String} (known : back ∈ rules.filterMap Rule.back ∨ back = "")
    (noBack : ∀ back ∈ rules.filterMap Rule.back, back ≠ "" →
      ¬ back.toList <+: after.toList) :
    ∀ text ∈ rules.filterMap Rule.back, text ≠ "" →
      text.toList <+: (back ++ after).toList → text = back := by
  intro text member filled starts
  rw [String.toList_append] at starts
  rcases known with backMember | none
  · by_cases empty : back = ""
    · rw [empty, String.toList_empty, List.nil_append] at starts
      exact absurd starts (noBack text member filled)
    · rcases List.prefix_or_prefix_of_prefix starts (List.prefix_append _ _) with
        inside | around
      · exact apart.back text member back backMember filled inside
      · exact (apart.back back backMember text member empty around).symm
  · rw [none, String.toList_empty, List.nil_append] at starts
    exact absurd starts (noBack text member filled)

theorem Scheme.WellFormed.locate_render {scheme : Scheme} (formed : scheme.WellFormed)
    {rules : List Rule} (apart : DecorationsApart rules) {outcome : Outcome}
    (decorated : outcome.DecoratedBy rules) {before after : String}
    (surrounds : scheme.Surrounds rules before after) :
    ∃ located, scheme.locate rules (before ++ outcome.render scheme ++ after) = .ok located ∧
      located.before = before ∧ located.core = outcome.version.render scheme ∧
      located.after = after ∧ located.literal = outcome.render scheme := by
  have frontKnown := getD_known decorated.front
  have backKnown := getD_known decorated.back
  have noDigit : ∀ c ∈ (before ++ outcome.front.getD "").toList, c.isDigit = false := by
    intro c member
    rw [String.toList_append] at member
    rcases List.mem_append.mp member with inBefore | inFront
    · exact surrounds.beforeDigit c inBefore
    · rcases frontKnown with known | none
      · exact apart.frontDigit _ known c inFront
      · rw [none] at inFront
        cases inFront
  have found := formed.find?_render outcome.version noDigit
    (surrounds.endsBefore (outcome.back.getD "") backKnown)
  have whole : before ++ outcome.render scheme ++ after =
      (before ++ outcome.front.getD "") ++ outcome.version.render scheme ++
        (outcome.back.getD "" ++ after) := by
    simp only [Outcome.render, String.append_assoc]
  have front := (Located.chooseFront_append_iff frontKnown).mpr
    (.of_only (apart.front_only frontKnown surrounds.front))
  have back := (Located.chooseBack_append_iff backKnown).mpr
    (.of_only (apart.back_only backKnown surrounds.back))
  refine ⟨{
    before
    front := if outcome.front.getD "" = "" then none else some (outcome.front.getD "")
    core := outcome.version.render scheme
    back := if outcome.back.getD "" = "" then none else some (outcome.back.getD "")
    after }, ?_, rfl, rfl, rfl, ?_⟩
  · rw [whole, Scheme.locate_of_find? rules found, front, back]
  · unfold Located.literal
    simp only [getD_filled]
    rfl

end Versioning
