import Versioning.Proofs.Scheme.Tokens
import Versioning.Proofs.Store.Memory
import Versioning.Proofs.Workflow.Steps

/-!
What a workflow is made of, and what it does to a memory.

A plan reads the version file and writes nothing. An update reads the file of its
target and writes it once, so updates of different files do not disturb one another.
-/

namespace Versioning

open Memory

/-! ### Setting up -/

private theorem SchemeCache.compile_empty (definition : String) :
    empty.compile definition =
      match Scheme.ofDefinition definition with
      | .error error => (.error error, .empty)
      | .ok scheme =>
          (.ok { slot := 0, scheme }, { entries := [(definition, scheme)] }) :=
  rfl

namespace Workflow

theorem create_eq (configuration : Configuration) :
    create configuration = (do
      let definition ← configuration.schemeDefinition
      let scheme ← Scheme.ofDefinition definition
      scheme.checkRules configuration.rules
      return { configuration, scheme }) := by
  unfold create openShared
  cases configuration.schemeDefinition with
  | error error => rfl
  | ok definition =>
      simp only [SchemeCache.compile_empty]
      change _ = (Scheme.ofDefinition definition >>= _)
      cases Scheme.ofDefinition definition with
      | error error => rfl
      | ok scheme =>
          change _ = (scheme.checkRules configuration.rules >>= _)
          simp only
          cases scheme.checkRules configuration.rules with
          | error error => rfl
          | ok _ => rfl

/-- A workflow has its configuration, a scheme that compiles, and rules that fit it. -/
theorem create_eq_ok {configuration : Configuration} {workflow : Workflow}
    (created : create configuration = .ok workflow) :
    workflow.configuration = configuration ∧
      (∃ definition, configuration.schemeDefinition = .ok definition ∧
        Scheme.compile definition = .ok workflow.scheme) ∧
      workflow.scheme.checkRules configuration.rules = .ok () := by
  rw [create_eq] at created
  obtain ⟨definition, selected, rest⟩ := bind_eq_ok.mp created
  obtain ⟨scheme, compiled, rest⟩ := bind_eq_ok.mp rest
  obtain ⟨_, fits, same⟩ := bind_eq_ok.mp rest
  cases same
  exact ⟨rfl, ⟨definition, selected, (Scheme.ofDefinition_eq_ok_iff _ _).mp compiled⟩, fits⟩

/-- Which targets there are plays no part in setting a workflow up. -/
theorem create_retarget {configuration : Configuration} {workflow : Workflow}
    (created : create configuration = .ok workflow) (versionFile : Target)
    (files : List Target) :
    create { configuration with versionFile, files } =
      .ok { workflow with configuration := { configuration with versionFile, files } } := by
  obtain ⟨_, ⟨definition, selected, compiled⟩, fits⟩ := create_eq_ok created
  rw [create_eq]
  refine bind_eq_ok.mpr ⟨definition, selected, bind_eq_ok.mpr ⟨workflow.scheme,
    (Scheme.ofDefinition_eq_ok_iff _ _).mpr compiled, bind_eq_ok.mpr ⟨(), fits, rfl⟩⟩⟩

/-! ### Planning and updating -/

theorem perform_locateIn (workflow : Workflow) (target : Target) (memory : Memory) :
    perform (workflow.locateIn store target) memory =
      ((memory.read target.path).bind fun text => workflow.locate (target.select text),
        memory) :=
  attempt_locateIn_over over_textFiles workflow target memory

theorem updates_iff {workflow : Workflow} {next : String} {before after : Memory}
    {target : Target} :
    workflow.Updates textFiles next before target after ↔
      ∃ text located, before.content? target.path = some text ∧
        workflow.locate (target.select text) = .ok located ∧
        Path.ofText target.path ∉ before.readOnly ∧
        after = before.insert target.path (target.replace text (located.splice next)) := by
  constructor
  · rintro ⟨read, locates, written⟩
    obtain ⟨writable, same⟩ := write_eq_ok_iff.mp written
    exact ⟨_, _, read_eq_ok_iff.mp read, locates, writable, same⟩
  · rintro ⟨text, located, stored, locates, writable, same⟩
    exact .written (read_eq_ok_iff.mpr stored) locates (write_eq_ok_iff.mpr ⟨writable, same⟩)

/-- Updates change nothing but the files of their targets. -/
theorem UpdatesAll.frame {workflow : Workflow} {next : String} {targets : List Target}
    {before after : Memory} (all : workflow.UpdatesAll textFiles next before targets after) :
    after.readOnly = before.readOnly ∧
      ∀ path, (∀ target ∈ targets, Path.ofText path ≠ Path.ofText target.path) →
        after.content? path = before.content? path := by
  refine all.preserves (fun state => state.readOnly = before.readOnly ∧
    ∀ path, (∀ target ∈ targets, Path.ofText path ≠ Path.ofText target.path) →
      state.content? path = before.content? path) ?_ ⟨rfl, fun _ _ => rfl⟩
  intro target member state later kept updates
  obtain ⟨text, located, _, _, _, rfl⟩ := updates_iff.mp updates
  refine ⟨kept.1, ?_⟩
  intro path apart
  rw [content?_insert_of_ne state _ (apart target member)]
  exact kept.2 path apart

/-- Different files in which a version is found are all updated, each as if it were
the only one. -/
theorem exists_updatesAll {workflow : Workflow} (next : String) {targets : List Target}
    {memory : Memory}
    (distinct : (targets.map fun target => Path.ofText target.path).Nodup)
    (writable : ∀ target ∈ targets, Path.ofText target.path ∉ memory.readOnly)
    (found : ∀ target ∈ targets, ∃ text located,
      memory.content? target.path = some text ∧
        workflow.locate (target.select text) = .ok located) :
    ∃ later, workflow.UpdatesAll textFiles next memory targets later ∧
      ∀ target ∈ targets, ∀ text located, memory.content? target.path = some text →
        workflow.locate (target.select text) = .ok located →
          later.content? target.path =
            some (target.replace text (located.splice next)) := by
  induction targets generalizing memory with
  | nil =>
      refine ⟨memory, .done memory, ?_⟩
      intro target member
      cases member
  | cons target targets ih =>
      have distinctParts := List.nodup_cons.mp distinct
      have writableParts := List.forall_mem_cons.mp writable
      have foundParts := List.forall_mem_cons.mp found
      obtain ⟨text, located, stored, locates⟩ := foundParts.1
      have others : ∀ other ∈ targets, Path.ofText other.path ≠ Path.ofText target.path := by
        intro other member same
        exact distinctParts.1 (List.mem_map.mpr ⟨other, member, same⟩)
      have first : workflow.Updates textFiles next memory target
          (memory.insert target.path (target.replace text (located.splice next))) :=
        updates_iff.mpr ⟨text, located, stored, locates, writableParts.1, rfl⟩
      have kept : ∀ other ∈ targets, ∀ new,
          (memory.insert target.path new).content? other.path =
            memory.content? other.path :=
        fun other member new => content?_insert_of_ne memory new (others other member)
      have middleWritable : ∀ other ∈ targets, Path.ofText other.path ∉
          (memory.insert target.path
            (target.replace text (located.splice next))).readOnly :=
        writableParts.2
      have middleFound : ∀ other ∈ targets, ∃ otherText otherLocated,
          (memory.insert target.path (target.replace text (located.splice next))).content?
              other.path = some otherText ∧
            workflow.locate (other.select otherText) = .ok otherLocated := by
        intro other member
        rw [kept other member]
        exact foundParts.2 other member
      obtain ⟨later, rest, written⟩ := ih distinctParts.2 middleWritable middleFound
      refine ⟨later, .next first rest, ?_⟩
      intro other member otherText otherLocated otherStored otherLocates
      rcases List.mem_cons.mp member with rfl | later
      · rw [stored] at otherStored
        cases otherStored
        rw [locates] at otherLocates
        cases otherLocates
        rw [rest.frame.2 other.path fun target member same => others target member same.symm]
        exact content?_insert_self memory _ _
      · refine written other later otherText otherLocated ?_ otherLocates
        rw [kept other later]
        exact otherStored

/-! ### Carrying a plan out -/

/-- A plan is carried out by updating its targets in turn, each in the memory that the
ones before it have left. When all are updated, their paths are listed. Otherwise there is
a first one that cannot be read, shows no version or cannot be written: its error is the
answer, and the memory is as the updates before it have left it. Only files of targets that
were updated change. -/
theorem apply_in_turn (workflow : Workflow) (memory : Memory) (plan : Plan) :
    (∀ paths later, perform (workflow.apply store plan) memory = (.ok paths, later) ↔
      paths = workflow.configuration.targets.map Target.path ∧
        workflow.UpdatesAll textFiles plan.next memory workflow.configuration.targets later) ∧
    (∀ error later, perform (workflow.apply store plan) memory = (.error error, later) ↔
      ∃ done failing rest, workflow.configuration.targets = done ++ failing :: rest ∧
        workflow.UpdatesAll textFiles plan.next memory done later ∧
        workflow.FailsToUpdate textFiles plan.next later failing error) ∧
    ∀ targets later, workflow.UpdatesAll textFiles plan.next memory targets later →
      later.readOnly = memory.readOnly ∧
        ∀ path, (∀ target ∈ targets, Path.ofText path ≠ Path.ofText target.path) →
          later.content? path = memory.content? path := by
  refine ⟨?_, ?_, ?_⟩
  · intro paths later
    exact attempt_updateAll_eq_ok_iff over_textFiles
  · intro error later
    exact attempt_updateAll_eq_error_iff over_textFiles
  · intro targets later all
    exact all.frame

def lockedWorkflow : Workflow :=
  { configuration := { Configuration.default with
      versionFile := { path := "docs/notes", line := some 1 }
      files := [{ path := "docs//notes", line := some 9 }, { path := "lock", line := none },
        { path := "docs/notes", line := some 2 }] }
    scheme := ⟨"major", .field "." "minor" (.group (.field "." "build" .done) .done)⟩ }

/-- Two lines are rewritten before the third target fails, and they stay rewritten. -/
theorem apply_in_turn_locked :
    perform (lockedWorkflow.apply store
        { current := ⟨"", none, "0.1", none, ""⟩, next := "2.10", applied := [] })
      { files := [(Path.ofText "docs/notes", "at 1.9\r\n1.9.0\n1.9"), (Path.ofText "lock", "1.9")]
        readOnly := [Path.ofText "lock"] } =
      (.error (.unwritable "lock" .readOnly),
        { files := [(Path.ofText "docs/notes", "at 2.10\r\n1.9.0\n2.10"),
            (Path.ofText "lock", "1.9")]
          readOnly := [Path.ofText "lock"] }) := by
  refine ((apply_in_turn lockedWorkflow _ _).2.1 _ _).mpr ⟨
    [{ path := "docs/notes", line := some 1 }, { path := "docs//notes", line := some 9 }],
    { path := "lock", line := none }, [{ path := "docs/notes", line := some 2 }], rfl, ?_, ?_⟩
  · exact .next (updatedIn_eq_ok_iff.mp rfl) (.next (updatedIn_eq_ok_iff.mp rfl) (.done _))
  · exact updatedIn_eq_error_iff.mp rfl

end Workflow

end Versioning
