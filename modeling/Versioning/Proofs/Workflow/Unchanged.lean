import Versioning.Proofs.Command.Stages
import Versioning.Proofs.Version.Canonical
import Versioning.Proofs.Workflow.Planning

/-!
Plans without rules.

A plan that no rule takes part in still reads the current version and renders it again. It
keeps every number, and it keeps the text exactly where that is the one way in which the
numbers are rendered.
-/

namespace Versioning

namespace Workflow

/-- Without rules the next version has the numbers of the current one and no decorations. -/
theorem planFrom_of_no_rules {workflow : Workflow} {current : Located} {trigger : Trigger}
    {branch : String} {version : Version}
    (unmatched : matchingRules workflow.configuration.rules trigger branch = [])
    (read : Version.ofLiteral workflow.scheme current.core = .ok version) :
    workflow.planFrom current trigger branch =
      .ok { current, next := version.render workflow.scheme, applied := [] } := by
  have rendered : Outcome.render workflow.scheme { version, front := none, back := none } =
      version.render workflow.scheme := by
    simp [Outcome.render]
  unfold planFrom
  rw [read, unmatched, ← rendered]
  rfl

/-- Where no rule matches and the current version is undecorated with numbers that fit, a plan
is made that applies no rule. Its next version has the same numbers as the current one. Both
are the same text exactly if the current one has no number with superfluous zeros in front and
spells the very fields that are shown: those all of whose groups start before the cut, which
is where the last row of optional fields that are zero or left out begins. Then the command
succeeds, whether or not it may write, and does nothing but read. -/
theorem plan_without_rules {configuration : Configuration} {workflow : Workflow}
    (created : create configuration = .ok workflow) {σ : Type} {store : TextStore (StateM σ)}
    {state later : σ} {trigger : Trigger} {branch : String}
    (unmatched : matchingRules configuration.rules trigger branch = []) {located : Located}
    (shows : attempt (workflow.current store) state = (.ok located, later))
    (noFront : located.front = none) (noBack : located.back = none)
    (fit : ∀ digits ∈ numerals located.core.toList, decimalValue digits < UInt64.size) :
    ∃ version captures plan,
      Version.ofLiteral workflow.scheme located.core = .ok version ∧
      workflow.scheme.Chosen located.core.toList captures ∧
      attempt (workflow.plan store trigger branch) state = (.ok plan, later) ∧
      plan.current = located ∧ plan.applied = [] ∧
      Version.ofLiteral workflow.scheme plan.next = .ok version ∧
      plan.next = version.render workflow.scheme ∧
      version.CutAt workflow.scheme (version.cut workflow.scheme) ∧
      (plan.next = located.literal ↔
        (∀ digits ∈ numerals located.core.toList, Unpadded digits) ∧
          workflow.scheme.SpellsShown (version.cut workflow.scheme) captures) ∧
      (plan.unchanged = true ↔ plan.next = located.literal) ∧
      (plan.unchanged = true → ∀ dryRun, ∃ output,
        StateT.run (Command.runBump workflow store trigger branch dryRun) state =
          (.success output, later)) ∧
      ∀ files, store.Over files → later = state := by
  obtain ⟨rfl, ⟨definition, _, compiled⟩, _⟩ := create_eq_ok created
  have formed := Scheme.wellFormed_of_compile compiled
  obtain ⟨_, _, captures, _, _, _, reads⟩ := exists_search?_of_current formed shows
  have chosen := formed.chosen_of_readWhole? reads
  obtain ⟨version, accepted, names, readFrom⟩ :=
    Version.ofLiteral_of_numerals formed chosen fit
  have planned : attempt (workflow.plan store trigger branch) state =
      (.ok { current := located, next := version.render workflow.scheme, applied := [] },
        later) := by
    rw [plan_of_current shows, planFrom_of_no_rules unmatched accepted]
  have bare : located.literal = located.core := by
    simp [Located.literal, noFront, noBack]
  refine ⟨version, captures, _, accepted, chosen, planned, rfl, rfl,
    Version.ofLiteral_render_of_names formed names, rfl, version.cutAt_cut workflow.scheme, ?_,
    ?_, ?_, ?_⟩
  · rw [bare]
    exact formed.render_eq_iff chosen readFrom
  · rw [Plan.unchanged, beq_iff_eq]
    exact eq_comm
  · intro unchanged dryRun
    cases dryRun with
    | true => exact ⟨_, Command.run_runBump_dry planned⟩
    | false => exact ⟨_, Command.run_runBump_unchanged planned unchanged⟩
  · intro files backed
    have kept := attempt_current_over backed workflow state
    rw [shows] at kept
    exact congrArg Prod.snd kept

def pairedConfiguration : Configuration :=
  { Configuration.default with
    schemeName := customScheme
    definition := some "a[.b.c]"
    rules := [{ trigger := .manual, branch := none, bump := some "b", reset := none
                front := some "v", back := none }] }

def pairedWorkflow : Workflow :=
  { configuration := pairedConfiguration
    scheme := ⟨"a", .group (.field "." "b" (.field "." "c" .done)) .done⟩ }

def pairedMemory : Memory :=
  { files := [(Path.ofText "VERSION", "é 1.20.0\n")], readOnly := [] }

/-- The zero at the end is kept, since its group starts with another number. -/
theorem plan_without_rules_paired :
    create pairedConfiguration = .ok pairedWorkflow ∧
    ∃ plan,
      attempt (pairedWorkflow.plan Memory.store .commit "main") pairedMemory =
        (.ok plan, pairedMemory) ∧
      plan.next = "1.20.0" ∧ plan.applied = [] ∧
      ∀ dryRun, ∃ output,
        StateT.run (Command.runBump pairedWorkflow Memory.store .commit "main" dryRun)
          pairedMemory = (.success output, pairedMemory) := by
  have created : create pairedConfiguration = .ok pairedWorkflow := by rfl
  have shows : attempt (pairedWorkflow.current Memory.store) pairedMemory =
      (.ok { before := "é ", front := none, core := "1.20.0", back := none, after := "\n" },
        pairedMemory) := by rfl
  have unmatched : matchingRules pairedConfiguration.rules .commit "main" = [] := by decide
  obtain ⟨version, captures, plan, accepted, chosen, planned, _, applied, _, _, _, same,
    unchanged, reads, _⟩ := plan_without_rules created unmatched shows rfl rfl (by decide)
  have compiled : Scheme.compile "a[.b.c]" = .ok pairedWorkflow.scheme := by rfl
  have formed := Scheme.wellFormed_of_compile compiled
  have captured : pairedWorkflow.scheme.readWhole? "1.20.0".toList =
      some [some ['1'], some ['2', '0'], some ['0']] := by rfl
  rw [(formed.readWhole?_eq_some_iff _ _).mpr chosen] at captured
  cases captured
  have numbers : Version.ofLiteral pairedWorkflow.scheme "1.20.0" =
      .ok (Version.ofPairs [("a", 1), ("b", 20), ("c", 0)]) := by rfl
  cases accepted.symm.trans numbers
  have kept : plan.next = "1.20.0" := by
    refine same.mpr ⟨by decide, ?_⟩
    intro index within
    have cases : index = 0 ∨ index = 1 ∨ index = 2 := by
      have three : pairedWorkflow.scheme.fields.length = 3 := rfl
      omega
    have cut : Version.cut pairedWorkflow.scheme
        (Version.ofPairs [("a", 1), ("b", 20), ("c", 0)]) = 2 := by decide +kernel
    rw [cut]
    rcases cases with rfl | rfl | rfl
    · exact ⟨fun _ => by decide, fun _ => ⟨_, rfl⟩⟩
    · exact ⟨fun _ => by decide, fun _ => ⟨_, rfl⟩⟩
    · exact ⟨fun _ => by decide, fun _ => ⟨_, rfl⟩⟩
  exact ⟨created, plan, planned, kept, applied, reads (unchanged.mpr kept)⟩

def semanticWorkflow : Workflow :=
  { configuration := Configuration.default
    scheme := ⟨"major", .field "." "minor" (.group (.field "." "build" .done) .done)⟩ }

def writtenZeroMemory : Memory :=
  { files := [(Path.ofText "VERSION", "1.2.0")], readOnly := [] }

def writtenZeroPlan : Plan :=
  { current := { before := "", front := none, core := "1.2.0", back := none, after := "" }
    next := "1.2"
    applied := [] }

/-- A zero that could be left out is written down. The command leaves it out although there is
no rule. -/
theorem plan_drops_written_zero :
    create Configuration.default = .ok semanticWorkflow ∧
    matchingRules Configuration.default.rules .commit "main" = [] ∧
    attempt (semanticWorkflow.current Memory.store) writtenZeroMemory =
      (.ok writtenZeroPlan.current, writtenZeroMemory) ∧
    writtenZeroPlan.current.front = none ∧ writtenZeroPlan.current.back = none ∧
    (∀ digits ∈ numerals writtenZeroPlan.current.core.toList,
      decimalValue digits < UInt64.size) ∧
    attempt (semanticWorkflow.plan Memory.store .commit "main") writtenZeroMemory =
      (.ok writtenZeroPlan, writtenZeroMemory) ∧
    writtenZeroPlan.current.literal = "1.2.0" ∧ writtenZeroPlan.next = "1.2" ∧
    writtenZeroPlan.unchanged = false ∧
    (StateT.run (Command.runBump semanticWorkflow Memory.store .commit "main" false)
        writtenZeroMemory).2 =
      { files := [(Path.ofText "VERSION", "1.2")], readOnly := [] } := by
  have planned : attempt (semanticWorkflow.plan Memory.store .commit "main") writtenZeroMemory =
      (.ok writtenZeroPlan, writtenZeroMemory) := by rfl
  have changed : writtenZeroPlan.unchanged = false := by decide
  have applied : attempt (semanticWorkflow.apply Memory.store writtenZeroPlan)
      writtenZeroMemory =
        (.ok ["VERSION"], { files := [(Path.ofText "VERSION", "1.2")], readOnly := [] }) := by
    rfl
  refine ⟨by rfl, rfl, by rfl, rfl, rfl, by decide, planned, rfl, rfl, changed, ?_⟩
  rw [Command.run_runBump planned changed, applied]

end Workflow

end Versioning
