import Versioning.Proofs.Located

/-!
Where a decorated version stands in its text.

A part of a text is told by the two bytes between which it stands. A decorated version
takes up exactly its front, its core and its back, so its bytes can be replaced without
touching any others. The decorations are the first ones in the order of the rules that
fit on either side of the core.
-/

namespace Versioning

/-! ### Parts of texts -/

/-- The bytes of `text` from `start` to `stop` are those of `part`, and there are whole
characters on either side of both places. -/
structure IsSpan (text : String) (start stop : Nat) (part : String) : Prop where
  ordered : start ≤ stop
  within : stop ≤ text.utf8ByteSize
  starts : String.Pos.Raw.IsValid text ⟨start⟩
  stops : String.Pos.Raw.IsValid text ⟨stop⟩
  bytes : text.toUTF8.extract start stop = part.toUTF8

section Joined

variable (before part after : String)

private theorem toUTF8_joined :
    (before ++ part ++ after).toUTF8 = before.toUTF8 ++ (part.toUTF8 ++ after.toUTF8) := by
  simp only [String.toUTF8_eq_toByteArray, String.toByteArray_append, ByteArray.append_assoc]

theorem isSpan_joined :
    IsSpan (before ++ part ++ after) before.utf8ByteSize
      (before.utf8ByteSize + part.utf8ByteSize) part where
  ordered := Nat.le_add_right _ _
  within := by
    rw [String.utf8ByteSize_append, String.utf8ByteSize_append]
    exact Nat.le_add_right _ _
  starts := by
    apply String.Pos.Raw.isValid_iff_exists_append.mpr
    exact ⟨before, part ++ after, String.append_assoc, rfl⟩
  stops := by
    apply String.Pos.Raw.isValid_iff_exists_append.mpr
    refine ⟨before ++ part, after, rfl, ?_⟩
    apply String.Pos.Raw.ext
    exact (String.utf8ByteSize_append (s := before) (t := part)).symm
  bytes := by
    have inside := @ByteArray.extract_append_size_add before.toUTF8
      (part.toUTF8 ++ after.toUTF8) 0 part.utf8ByteSize
    rw [toUTF8_joined]
    exact inside.trans (ByteArray.extract_append_eq_left rfl)

/-- What a part of a text is replaced by stands between the bytes before it and those
behind it. -/
theorem toUTF8_replaced (next : String) :
    (before ++ next ++ after).toUTF8 =
      (before ++ part ++ after).toUTF8.extract 0 before.utf8ByteSize ++ next.toUTF8 ++
        (before ++ part ++ after).toUTF8.extract (before.utf8ByteSize + part.utf8ByteSize)
          (before ++ part ++ after).utf8ByteSize := by
  have front : (before ++ part ++ after).toUTF8.extract 0 before.utf8ByteSize =
      before.toUTF8 := by
    rw [toUTF8_joined]
    exact ByteArray.extract_append_eq_left rfl
  have back : (before ++ part ++ after).toUTF8.extract
      (before.utf8ByteSize + part.utf8ByteSize) (before ++ part ++ after).utf8ByteSize =
        after.toUTF8 := by
    rw [toUTF8_joined, ← ByteArray.append_assoc]
    apply ByteArray.extract_append_eq_right
    · exact ByteArray.size_append.symm
    · rw [ByteArray.size_append, String.utf8ByteSize_append, String.utf8ByteSize_append]
      rfl
  rw [front, back, toUTF8_joined, ByteArray.append_assoc]

end Joined

/-! ### The first decoration that fits -/

/-- A search for a decoration comes to the first text that is not empty and fits. -/
private theorem name_getD_findSome? {α : Type} (take : String → Option String)
    (pack : String → String → α) (name : α → Option String) (nothing : α)
    (unnamed : name nothing = none) (named : ∀ text rest, name (pack text rest) = some text)
    (texts : List String) :
    name ((texts.findSome? (takeFilled take pack)).getD nothing) =
      texts.find? fun text => text ≠ "" ∧ (take text).isSome = true := by
  induction texts with
  | nil => exact unnamed
  | cons text texts ih =>
      rw [List.findSome?_cons, List.find?_cons]
      by_cases empty : text = ""
      · subst empty
        exact ih
      · rw [takeFilled_of_ne_empty empty]
        cases takes : take text with
        | none => simpa [empty] using ih
        | some rest => simp [empty, named]

namespace Located

private theorem snd_chooseFront (texts : List String) (before : String) :
    (chooseFront texts before).2 =
      texts.find? fun text => text ≠ "" ∧ text.toList <:+ before.toList := by
  have first := name_getD_findSome? (fun text => beforeSuffix? text before)
    (fun text shorter => (shorter, some text)) Prod.snd (before, none) rfl (fun _ _ => rfl) texts
  simp only [isSome_beforeSuffix?_iff] at first
  exact first

private theorem fst_chooseBack (texts : List String) (after : String) :
    (chooseBack texts after).1 =
      texts.find? fun text => text ≠ "" ∧ text.toList <+: after.toList := by
  have first := name_getD_findSome? (fun text => afterPrefix? text after)
    (fun text shorter => (some text, shorter)) Prod.fst (none, after) rfl (fun _ _ => rfl) texts
  simp only [isSome_afterPrefix?_iff] at first
  exact first

end Located

/-! ### The decorated version -/

theorem Occurrence.isSpan (found : Occurrence) :
    IsSpan found.text found.start found.stop found.core :=
  isSpan_joined found.before found.core found.after

/-- What was found, with the first front that it stands behind and the first back that
follows it. All rules lend their decorations, and empty ones do not count. -/
structure Located.Decorates (rules : List Rule) (found : Occurrence) (located : Located) :
    Prop where
  core : located.core = found.core
  front : located.front = (rules.filterMap Rule.front).find? fun front =>
    front ≠ "" ∧ front.toList <:+ found.before.toList
  back : located.back = (rules.filterMap Rule.back).find? fun back =>
    back ≠ "" ∧ back.toList <+: found.after.toList
  room : (located.front.getD "").utf8ByteSize ≤ found.start
  start : located.start = found.start - (located.front.getD "").utf8ByteSize
  stop : located.stop = found.stop + (located.back.getD "").utf8ByteSize

namespace Scheme

variable {scheme : Scheme} {rules : List Rule} {text : String}

private theorem exists_locate_of_find? (rules : List Rule) {found : Occurrence}
    (searched : scheme.find? text = some found) :
    ∃ located, scheme.locate rules text = .ok located ∧ located.Decorates rules found := by
  have joined := Located.chooseFront_joined (rules.filterMap Rule.front) found.before
  have sizes := congrArg String.utf8ByteSize joined
  rw [String.utf8ByteSize_append] at sizes
  refine ⟨_, locate_of_find? rules searched, {
    core := rfl
    front := Located.snd_chooseFront _ _
    back := Located.fst_chooseBack _ _
    room := ?_
    start := ?_
    stop := ?_ }⟩
  · rw [Occurrence.start, ← sizes]
    exact Nat.le_add_left _ _
  · rw [Occurrence.start, ← sizes, Nat.add_sub_cancel]
    rfl
  · simp only [Located.stop, Located.start, Located.literal, Occurrence.stop, Occurrence.start,
      String.utf8ByteSize_append]
    omega

theorem isSpan_of_locate {located : Located}
    (locates : scheme.locate rules text = .ok located) :
    IsSpan text located.start located.stop located.literal := by
  have spans := isSpan_joined located.before located.literal located.after
  rwa [joined_of_locate locates] at spans

/-- There is no current version exactly where nothing is found. Otherwise it is what was found
with the decorations around it: the first front, over all rules, that the text before it ends
with, and the first back that the text behind it starts with. The front fits in before what was
found. The span of the version covers that of what was found, lies between characters of the
text, and holds the bytes of front, core and back and no others. -/
theorem locate_exact (scheme : Scheme) (rules : List Rule) (text : String) :
    (scheme.locate rules text = .error .noMatch ↔ scheme.find? text = none) ∧
    ∀ found, scheme.find? text = some found →
      found.before ++ found.core ++ found.after = text ∧
      IsSpan text found.start found.stop found.core ∧
      ∃ located, scheme.locate rules text = .ok located ∧
        located.Decorates rules found ∧
        located.start ≤ found.start ∧ found.stop ≤ located.stop ∧
        located.literal =
          located.front.getD "" ++ found.core ++ located.back.getD "" ∧
        IsSpan text located.start located.stop located.literal := by
  refine ⟨⟨?_, locate_of_find?_eq_none rules⟩, ?_⟩
  · intro refused
    cases searched : scheme.find? text with
    | none => rfl
    | some found =>
        rw [locate_of_find? rules searched] at refused
        cases refused
  · intro found searched
    have whole := text_of_find? searched
    have spans := found.isSpan
    rw [whole] at spans
    obtain ⟨located, locates, decorates⟩ := exists_locate_of_find? rules searched
    refine ⟨whole, spans, located, locates, decorates, ?_, ?_, ?_, isSpan_of_locate locates⟩
    · rw [decorates.start]
      exact Nat.sub_le _ _
    · rw [decorates.stop]
      exact Nat.le_add_right _ _
    · rw [Located.literal, decorates.core]

def labelRules : List Rule :=
  [{ trigger := .comment, branch := none, bump := none, reset := none
     front := some "", back := some "" },
    { trigger := .commit, branch := some "main", bump := none, reset := none
      front := some "v.", back := some "-β2" },
    { trigger := .manual, branch := none, bump := none, reset := none
      front := some "ρ-v.", back := some "-β" }]

/-- The first front that fits is shorter than the second one, and the first back is longer. -/
theorem locate_exact_labels :
    ∃ located,
      Scheme.locate ⟨"a", .group (.field "." "b" .done) .done⟩ labelRules "« ρ-v.1.0-β2»" =
        .ok located ∧
      located.front = some "v." ∧ located.back = some "-β2" ∧
      located.start = 6 ∧ located.stop = 15 ∧
      IsSpan "« ρ-v.1.0-β2»" 6 15 "v.1.0-β2" := by
  obtain ⟨_, _, located, locates, decorates, _, _, literal, spans⟩ :=
    (locate_exact ⟨"a", .group (.field "." "b" .done) .done⟩ labelRules "« ρ-v.1.0-β2»").2
      { before := "« ρ-v.", core := "1.0", after := "-β2»" } rfl
  have front : located.front = some "v." := decorates.front.trans (by decide)
  have back : located.back = some "-β2" := decorates.back.trans (by decide)
  have start : located.start = 6 := by
    rw [decorates.start, front]
    rfl
  have stop : located.stop = 15 := by
    rw [decorates.stop, back]
    rfl
  rw [start, stop, literal, front, back] at spans
  exact ⟨located, locates, front, back, start, stop, spans⟩

end Scheme

end Versioning
