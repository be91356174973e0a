import Versioning.Proofs.Located.Span
import Versioning.Proofs.Workflow.Updating

/-!
What an update does to the bytes of a file.

A version is found in what a target selects, so its place there is counted from where that
starts in the file. The file is written with other bytes in exactly this place, whichever
line terminators it has.
-/

namespace Versioning

namespace Target

variable (target : Target) (text : String)

/-- What stands around the selected text and around a version in it, in one text. -/
theorem joined_located {located : Located}
    (joined : located.before ++ located.literal ++ located.after = target.select text) :
    target.above text ++ located.before ++ located.literal ++
      (located.after ++ target.below text) = text := by
  calc
    target.above text ++ located.before ++ located.literal ++
        (located.after ++ target.below text) =
      target.above text ++ (located.before ++ located.literal ++ located.after) ++
        target.below text := by simp only [String.append_assoc]
    _ = text := by rw [joined, joined_select]

theorem replace_splice (located : Located) (next : String) :
    target.replace text (located.splice next) =
      target.above text ++ located.before ++ next ++ (located.after ++ target.below text) := by
  rw [replace_eq_joined]
  simp only [Located.splice, String.append_assoc]

end Target

namespace Workflow

open Memory

variable {workflow : Workflow} {target : Target}

/-- A version has its place in the selected text, counted from where that starts in the
file. -/
private theorem isSpan_of_locate_select {text : String} {located : Located}
    (locates : workflow.locate (target.select text) = .ok located) :
    IsSpan text ((target.above text).utf8ByteSize + located.start)
      ((target.above text).utf8ByteSize + located.stop) located.literal := by
  have spans := isSpan_joined (target.above text ++ located.before) located.literal
    (located.after ++ target.below text)
  rw [target.joined_located text (Scheme.joined_of_locate locates),
    String.utf8ByteSize_append, Nat.add_assoc] at spans
  exact spans

theorem toUTF8_replace_splice {text : String} {located : Located}
    (locates : workflow.locate (target.select text) = .ok located) (next : String) :
    (target.replace text (located.splice next)).toUTF8 =
      text.toUTF8.extract 0 ((target.above text).utf8ByteSize + located.start) ++
        next.toUTF8 ++
        text.toUTF8.extract ((target.above text).utf8ByteSize + located.stop)
          text.utf8ByteSize := by
  have replaced := toUTF8_replaced (target.above text ++ located.before) located.literal
    (located.after ++ target.below text) next
  rw [target.joined_located text (Scheme.joined_of_locate locates),
    String.utf8ByteSize_append, Nat.add_assoc] at replaced
  rw [target.replace_splice]
  exact replaced

/-- An update that succeeds has read its target and found a version in it. In the file that
version stands where it was found in the selected text, counted from the only byte at which
that starts. The next version takes the place of these bytes. The bytes before and behind
them are kept, and so are all other files. -/
theorem update_splices (workflow : Workflow) (next : String) (target : Target)
    {before after : Memory}
    (updated : perform (workflow.update store next target) before = (.ok (), after)) :
    ∃ old text located offset new,
      before.content? target.path = some old ∧
      perform (store.readTarget target) before = (.ok text, before) ∧
      workflow.locate text = .ok located ∧
      IsSpan text located.start located.stop located.literal ∧
      (∀ byte, target.StartsAt old byte ↔ byte = offset) ∧
      IsSpan old (offset + located.start) (offset + located.stop) located.literal ∧
      after.content? target.path = some new ∧
      new.toUTF8 =
        old.toUTF8.extract 0 (offset + located.start) ++ next.toUTF8 ++
          old.toUTF8.extract (offset + located.stop) old.utf8ByteSize ∧
      after.readOnly = before.readOnly ∧
      ∀ path, Path.ofText path ≠ Path.ofText target.path →
        after.content? path = before.content? path := by
  obtain ⟨old, located, stored, locates, _, rfl⟩ :=
    updates_iff.mp ((attempt_update_eq_ok_iff over_textFiles).mp updated)
  have read : perform (store.readTarget target) before = (.ok (target.select old), before) := by
    have selected := over_textFiles.attempt_readTarget target before
    rw [show textFiles.read before target.path = .ok old from read_eq_ok_iff.mpr stored]
      at selected
    exact selected
  refine ⟨old, target.select old, located, (target.above old).utf8ByteSize,
    target.replace old (located.splice next), stored, read, locates,
    Scheme.isSpan_of_locate locates, fun _ => Target.startsAt_iff,
    isSpan_of_locate_select locates, content?_insert_self _ _ _,
    toUTF8_replace_splice locates next, rfl, ?_⟩
  intro path apart
  exact content?_insert_of_ne before _ apart

def labelWorkflow : Workflow :=
  { configuration := { Configuration.default with rules := Scheme.labelRules }
    scheme := ⟨"a", .group (.field "." "b" .done) .done⟩ }

def mixedText : String := "1.0\r\n\rα\n\n« ρ-v.1.0-β2»\r"

/-- A line number past the end stands for the last line, which starts at byte 10. -/
theorem update_splices_last_line :
    ∃ located,
      perform (labelWorkflow.update store "é3" { path := "notes", line := some 9 })
        { files := [(Path.ofText "notes", mixedText)], readOnly := [] } =
          (.ok (), { files := [(Path.ofText "notes", "1.0\r\n\rα\n\n« ρ-é3»\r")]
                     readOnly := [] }) ∧
      labelWorkflow.locate "« ρ-v.1.0-β2»\r" = .ok located ∧
      IsSpan mixedText (10 + located.start) (10 + located.stop) located.literal ∧
      "1.0\r\n\rα\n\n« ρ-é3»\r".toUTF8 =
        mixedText.toUTF8.extract 0 (10 + located.start) ++ "é3".toUTF8 ++
          mixedText.toUTF8.extract (10 + located.stop) mixedText.utf8ByteSize := by
  have updated : perform (labelWorkflow.update store "é3" { path := "notes", line := some 9 })
      { files := [(Path.ofText "notes", mixedText)], readOnly := [] } =
        (.ok (), { files := [(Path.ofText "notes", "1.0\r\n\rα\n\n« ρ-é3»\r")]
                   readOnly := [] }) :=
    (attempt_update_eq_ok_iff over_textFiles).mpr (updatedIn_eq_ok_iff.mp rfl)
  obtain ⟨old, text, located, offset, new, stored, read, locates, _, only, spans, left, bytes,
    _⟩ := update_splices _ _ _ updated
  have known : old = mixedText := (Option.some.inj stored).symm
  have selected : text = "« ρ-v.1.0-β2»\r" :=
    (Except.ok.inj (congrArg Prod.fst read)).symm
  subst known selected
  have starts : offset = 10 := by
    have feeds : "1.0\r\n\rα\n\n".toList.count '\n' =
        Line.place (Line.ofText mixedText.toList).length (some 9) := by rfl
    refine ((only 10).mp ⟨"1.0\r\n\rα\n\n", "« ρ-v.1.0-β2»\r", rfl, rfl, feeds, ?_⟩).symm
    intro c last
    exact (Option.some.inj last).symm
  have same : new = "1.0\r\n\rα\n\n« ρ-é3»\r" := (Option.some.inj left).symm
  subst starts same
  exact ⟨located, updated, locates, spans, bytes⟩

end Workflow

end Versioning
