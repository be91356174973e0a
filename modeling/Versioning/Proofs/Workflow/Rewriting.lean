import Versioning.Proofs.Workflow.Splicing

/-!
Plans that leave the version file as it is.

A plan tells whether anything changes by comparing two versions, without a look at the
file. It is right about the file: the current version is what stands in the place that is
written over, and everything around that place is kept, so the file gets the same bytes
exactly if this place does.
-/

namespace Versioning

/-- What is written over a version leaves the text as it was only if it is that version. -/
private theorem Target.replace_splice_eq_iff (target : Target) {text : String} {located : Located}
    (joined : located.before ++ located.literal ++ located.after = target.select text)
    (next : String) :
    target.replace text (located.splice next) = text ↔ located.literal = next := by
  have whole := target.joined_located text joined
  constructor
  · intro kept
    rw [target.replace_splice] at kept
    have behind := (kept.trans whole.symm)
    rw [← String.toList_inj] at behind ⊢
    simp only [String.toList_append] at behind
    exact (List.append_cancel_left (List.append_cancel_right behind)).symm
  · intro same
    rw [target.replace_splice, ← same, whole]

namespace Workflow

open Memory

variable {workflow : Workflow} {memory later : Memory} {plan : Plan}

private theorem locate_of_plan {trigger : Trigger} {branch : String}
    (planned : perform (workflow.plan store trigger branch) memory = (.ok plan, later)) :
    later = memory ∧
    ∃ old, memory.content? workflow.configuration.versionFile.path = some old ∧
      workflow.locate (workflow.configuration.versionFile.select old) = .ok plan.current := by
  have made := attempt_plan_over over_textFiles workflow trigger branch memory
  have same := planned.symm.trans made
  refine ⟨congrArg Prod.snd same, ?_⟩
  obtain ⟨located, shown, rest⟩ := bind_eq_ok.mp (congrArg Prod.fst same).symm
  obtain ⟨old, read, locates⟩ := bind_eq_ok.mp shown
  rw [current_of_planFrom rest]
  exact ⟨old, read_eq_ok_iff.mp read, locates⟩

/-- The update of a target in which a version is found writes its file once. -/
private theorem perform_update {target : Target} {old : String} {located : Located}
    (stored : memory.content? target.path = some old)
    (locates : workflow.locate (target.select old) = .ok located) (next : String) :
    perform (workflow.update store next target) memory =
      stepped memory
        (memory.write target.path (target.replace old (located.splice next))) := by
  have read : textFiles.read memory target.path = .ok old := read_eq_ok_iff.mpr stored
  have updated := attempt_update over_textFiles workflow next target memory
  unfold updatedIn at updated
  rw [read] at updated
  simp only [bind, Except.bind, locates] at updated
  exact updated

/-- What the first of several updates wrote is kept if no later one writes the same file. -/
private theorem UpdatesAll.content?_first {next new : String} {target : Target}
    {others : List Target}
    (all : workflow.UpdatesAll textFiles next memory (target :: others) later)
    (first : perform (workflow.update store next target) memory =
      (.ok (), memory.insert target.path new))
    (apart : ∀ other ∈ others, Path.ofText other.path ≠ Path.ofText target.path) :
    later.content? target.path = some new := by
  cases all with
  | next updates rest =>
      have same := ((attempt_update_eq_ok_iff over_textFiles).mpr updates).symm.trans first
      have middle := congrArg Prod.snd same
      rw [rest.frame.2 _ fun other member equal => apart other member equal.symm]
      subst middle
      exact content?_insert_self _ _ _

/-- A plan that is carried out starts with the version file. -/
theorem content?_of_apply {new : String} {answer : Except Error (List String)}
    (first : perform (workflow.update store plan.next workflow.configuration.versionFile) memory =
      (.ok (), memory.insert workflow.configuration.versionFile.path new))
    (apart : ∀ other ∈ workflow.configuration.files,
      Path.ofText other.path ≠ Path.ofText workflow.configuration.versionFile.path)
    (applied : perform (workflow.apply store plan) memory = (answer, later)) :
    later.content? workflow.configuration.versionFile.path = some new := by
  have targets : workflow.configuration.targets =
      workflow.configuration.versionFile :: workflow.configuration.files := rfl
  cases answer with
  | ok paths =>
      obtain ⟨_, all⟩ := (attempt_updateAll_eq_ok_iff over_textFiles).mp applied
      rw [targets] at all
      exact all.content?_first first apart
  | error error =>
      obtain ⟨done, failing, rest, split, all, fails⟩ :=
        (attempt_updateAll_eq_error_iff over_textFiles).mp applied
      rw [targets] at split
      cases all with
      | done =>
          -- The first target is the version file, whose update does not fail.
          obtain ⟨same, _⟩ := List.cons.inj split
          rw [← same] at fails
          have stopped := (attempt_update_eq_error_iff over_textFiles).mpr ⟨fails, rfl⟩
          have impossible := congrArg Prod.fst (stopped.symm.trans first)
          cases impossible
      | next updates others =>
          obtain ⟨same, behind⟩ := List.cons.inj split
          have all := UpdatesAll.next updates others
          rw [← same] at all
          apply all.content?_first first
          intro other member
          apply apart other
          rw [behind]
          exact List.mem_append_left _ member

/-- Making a plan changes no file, and the current version is found in the version file. To
carry the plan out, that file is written once. What is written has the same bytes as the file
exactly if the plan says that nothing changes, wherever the version stands in the file and
whether or not it may be written. A file that may be written holds these bytes in the end, also
if a later target fails, as long as none has the same path. -/
theorem unchanged_iff_same_bytes {trigger : Trigger} {branch : String}
    (planned : perform (workflow.plan store trigger branch) memory = (.ok plan, later)) :
    later = memory ∧
    ∃ old new, memory.content? workflow.configuration.versionFile.path = some old ∧
      perform (workflow.update store plan.next workflow.configuration.versionFile) memory =
        stepped memory (memory.write workflow.configuration.versionFile.path new) ∧
      (plan.unchanged = true ↔ new.toUTF8 = old.toUTF8) ∧
      (Path.ofText workflow.configuration.versionFile.path ∉ memory.readOnly →
        (∀ other ∈ workflow.configuration.files,
          Path.ofText other.path ≠ Path.ofText workflow.configuration.versionFile.path) →
        ∀ answer after, perform (workflow.apply store plan) memory = (answer, after) →
          after.content? workflow.configuration.versionFile.path = some new) := by
  obtain ⟨kept, old, stored, locates⟩ := locate_of_plan planned
  have updated := perform_update stored locates plan.next
  refine ⟨kept, old, _, stored, updated, ?_, ?_⟩
  · rw [String.toUTF8_eq_toByteArray, String.toUTF8_eq_toByteArray, String.toByteArray_inj,
      Target.replace_splice_eq_iff _ (Scheme.joined_of_locate locates), Plan.unchanged,
      beq_iff_eq]
  · intro writable apart answer after applied
    have written : memory.write workflow.configuration.versionFile.path
        (workflow.configuration.versionFile.replace old (plan.current.splice plan.next)) =
      .ok (memory.insert workflow.configuration.versionFile.path
        (workflow.configuration.versionFile.replace old (plan.current.splice plan.next))) :=
      write_eq_ok_iff.mpr ⟨writable, rfl⟩
    rw [written] at updated
    exact content?_of_apply updated apart applied

def relabelWorkflow : Workflow :=
  { labelWorkflow with
    configuration :=
      { labelWorkflow.configuration with
        versionFile := { path := "notes", line := some 9 }
        files := [{ path := "missing", line := none }] } }

def relabelMemory : Memory :=
  { files := [(Path.ofText "notes", "1.0\r\n\rα\n\n« v.1.3-β2»\r")], readOnly := [] }

def relabelPlan : Plan :=
  { current :=
      { before := "« ", front := some "v.", core := "1.3", back := some "-β2", after := "»\r" }
    next := "v.1.3-β2"
    applied :=
      [{ trigger := .commit, branch := some "main", bump := none, reset := none
         front := some "v.", back := some "-β2" }] }

/-- The labels that are taken off are put back. The last line is written with the carriage return
that it ends with, and the target that follows fails. -/
theorem unchanged_iff_same_bytes_last_line :
    perform (relabelWorkflow.plan store .commit "main") relabelMemory =
      (.ok relabelPlan, relabelMemory) ∧
    relabelPlan.unchanged = true ∧
    ∃ answer after,
      perform (relabelWorkflow.apply store relabelPlan) relabelMemory = (answer, after) ∧
      answer ≠ .ok ["notes", "missing"] ∧
      after.content? "notes" = some "1.0\r\n\rα\n\n« v.1.3-β2»\r" := by
  have planned : perform (relabelWorkflow.plan store .commit "main") relabelMemory =
      (.ok relabelPlan, relabelMemory) := by rfl
  have unchanged : relabelPlan.unchanged = true := by decide
  obtain ⟨_, old, new, stored, _, same, left⟩ := unchanged_iff_same_bytes planned
  have known : old = "1.0\r\n\rα\n\n« v.1.3-β2»\r" := (Option.some.inj stored).symm
  have bytes := same.mp unchanged
  rw [String.toUTF8_eq_toByteArray, String.toUTF8_eq_toByteArray, String.toByteArray_inj] at bytes
  refine ⟨planned, unchanged, _, _, rfl, ?_, ?_⟩
  · intro finished
    cases finished
  · rw [← known, ← bytes]
    apply left
    · exact List.not_mem_nil
    · intro other member
      cases List.mem_singleton.mp member
      decide
    · rfl

end Workflow

end Versioning
