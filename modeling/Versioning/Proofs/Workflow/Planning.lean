import Versioning.Proofs.Located
import Versioning.Proofs.Rule.Failure
import Versioning.Proofs.Scheme.Leftmost
import Versioning.Proofs.Version.Literal
import Versioning.Proofs.Workflow.Updating
import Versioning.Store.Disk

/-!
How a plan can fail.

A plan fails where the current version cannot be told. After that a number that does not
fit is all that can go wrong: what a search finds is read again as a whole, digit run by
digit run, and rules that were checked name only fields that there are.
-/

namespace Versioning

/-! ### What was found is read again -/

/-- The way in which a version was found is also the preferred way to read it alone. -/
private theorem Scheme.FindsFirst.readWhole? {scheme : Scheme} (formed : scheme.WellFormed)
    {text : String} {found : Occurrence} {choice : List Bool}
    {captures : List (Option (List Char))}
    (finds : scheme.FindsFirst text found choice captures) :
    scheme.readWhole? found.core.toList = some captures := by
  apply (formed.readWhole?_eq_some_iff found.core.toList captures).mpr
  refine ⟨choice, finds.greedy.derives, ?_⟩
  intro other others derivation
  exact finds.greedy.preferred other others found.core.toList found.after.toList rfl derivation

private theorem Scheme.WellFormed.locate_cases {scheme : Scheme} (formed : scheme.WellFormed)
    (rules : List Rule) (text : String) :
    scheme.locate rules text = .error .noMatch ∨
    ∃ found captures located, scheme.search? text = some (found, captures) ∧
      scheme.locate rules text = .ok located ∧ located.core = found.core ∧
      scheme.readWhole? found.core.toList = some captures := by
  have search := scheme.find?_eq_map_search? text
  rcases formed.search?_cases text with ⟨none, _⟩ | ⟨found, choice, captures, searched, finds⟩
  · left
    rw [none] at search
    exact locate_of_find?_eq_none rules search
  · right
    rw [searched] at search
    exact ⟨found, captures, _, searched, locate_of_find? rules search, rfl,
      finds.readWhole? formed⟩

/-! ### Numbers that do not fit -/

/-- A number that was read, or one that the rules lead to, does not fit. -/
def Scheme.Overflows (scheme : Scheme) (applied : List Rule)
    (captures : List (Option (List Char))) : Prop :=
  (∃ digits, some digits ∈ captures ∧ UInt64.size ≤ decimalValue digits) ∨
    ∃ name capture, (name, capture) ∈ (scheme.fields.map Field.name).zip captures ∧
      UInt64.size ≤ ruledNumber applied name (captureNumber capture)

namespace Workflow

theorem planFrom_cases {workflow : Workflow} (formed : workflow.scheme.WellFormed)
    (fits : workflow.scheme.checkRules workflow.configuration.rules = .ok ())
    {current : Located} {captures : List (Option (List Char))}
    (read : workflow.scheme.readWhole? current.core.toList = some captures)
    (trigger : Trigger) (branch : String) :
    (∃ plan, workflow.planFrom current trigger branch = .ok plan ∧
      ¬ workflow.scheme.Overflows
        (matchingRules workflow.configuration.rules trigger branch) captures) ∨
    ∃ name digits,
      workflow.planFrom current trigger branch = .error (.fieldOverflow name digits) ∧
        workflow.scheme.Overflows
          (matchingRules workflow.configuration.rules trigger branch) captures := by
  unfold planFrom
  have known : ∀ rule ∈ matchingRules workflow.configuration.rules trigger branch,
      rule ∈ workflow.configuration.rules :=
    fun rule member => (List.mem_filter.mp member).1
  rcases Version.ofLiteral_cases formed read with
    ⟨version, accepted, small, numbers⟩ | ⟨name, digits, refused, large⟩
  · rw [accepted]
    change (∃ plan, (version.applyRules workflow.scheme _ >>= _) = .ok plan ∧ _) ∨
      ∃ name digits, (version.applyRules workflow.scheme _ >>= _) = _ ∧ _
    rcases Version.applyRules_cases fits known version with
      ⟨outcome, done, raised⟩ | ⟨name, digits, failed, checked, large⟩
    · left
      rw [done]
      refine ⟨_, rfl, ?_⟩
      intro overflows
      rcases overflows with ⟨digits, member, large⟩ | ⟨name, capture, member, large⟩
      · exact absurd (small _ member) (Nat.not_lt.mpr large)
      · rw [← numbers name capture member, ← raised] at large
        exact absurd (outcome.version.value name).toNat_lt (Nat.not_lt.mpr large)
    · right
      rw [failed]
      refine ⟨name, digits, rfl, .inr ?_⟩
      obtain ⟨choice, derivation, _⟩ := formed.chosen_of_readWhole? read
      have length : (workflow.scheme.fields.map Field.name).length = captures.length := by
        rw [List.length_map, derivation.length_captures, workflow.scheme.length_fields]
      have named : name ∈ workflow.scheme.fields.map Field.name := by
        rcases workflow.scheme.checkField_cases name with unknown | ⟨_, field, member, same⟩
        · rw [checked] at unknown
          cases unknown
        · rw [← same]
          exact List.mem_map_of_mem member
      rw [← List.map_fst_zip (Nat.le_of_eq length)] at named
      obtain ⟨⟨name, capture⟩, member, rfl⟩ := List.mem_map.mp named
      rw [numbers name capture member] at large
      exact ⟨name, capture, member, large⟩
  · right
    rw [refused]
    exact ⟨name, digits, rfl, .inl large⟩

/-! ### Reading the version file -/

theorem current_error_cases {σ : Type} {workflow : Workflow}
    (formed : workflow.scheme.WellFormed) {store : TextStore (StateM σ)} {state later : σ}
    {error : Error} (failed : attempt (workflow.current store) state = (.error error, later)) :
    attempt (store.readTarget workflow.configuration.versionFile) state = (.error error, later) ∨
      error = .noMatch := by
  unfold current at failed
  rw [attempt_locateIn] at failed
  rcases read : attempt (store.readTarget workflow.configuration.versionFile) state with
    ⟨fault | text, middle⟩
  · rw [read] at failed
    cases failed
    exact .inl rfl
  · rw [read] at failed
    right
    have failedHere : workflow.scheme.locate workflow.configuration.rules text = .error error :=
      congrArg Prod.fst failed
    rcases formed.locate_cases workflow.configuration.rules text with
      nowhere | ⟨_, _, located, _, locates, _⟩
    · rw [nowhere] at failedHere
      cases failedHere
      rfl
    · rw [locates] at failedHere
      cases failedHere

theorem exists_search?_of_current {σ : Type} {workflow : Workflow}
    (formed : workflow.scheme.WellFormed) {store : TextStore (StateM σ)} {state later : σ}
    {located : Located} (found : attempt (workflow.current store) state = (.ok located, later)) :
    ∃ text found captures,
      attempt (store.readTarget workflow.configuration.versionFile) state = (.ok text, later) ∧
        workflow.scheme.search? text = some (found, captures) ∧
        located.core = found.core ∧
        workflow.scheme.readWhole? located.core.toList = some captures := by
  unfold current at found
  rw [attempt_locateIn] at found
  rcases read : attempt (store.readTarget workflow.configuration.versionFile) state with
    ⟨fault | text, middle⟩
  · rw [read] at found
    cases found
  · rw [read] at found
    have foundHere : workflow.scheme.locate workflow.configuration.rules text = .ok located :=
      congrArg Prod.fst found
    have sameState : middle = later := congrArg Prod.snd found
    rcases formed.locate_cases workflow.configuration.rules text with
      nowhere | ⟨occurrence, captures, other, searched, locates, core, reads⟩
    · rw [nowhere] at foundHere
      cases foundHere
    · rw [locates] at foundHere
      cases foundHere
      rw [← core] at reads
      exact ⟨text, occurrence, captures, by rw [sameState], searched, core, reads⟩

theorem plan_of_current_error {σ : Type} {workflow : Workflow} {store : TextStore (StateM σ)}
    {state later : σ} {error : Error}
    (failed : attempt (workflow.current store) state = (.error error, later))
    (trigger : Trigger) (branch : String) :
    attempt (workflow.plan store trigger branch) state = (.error error, later) := by
  rw [attempt_plan, failed]

theorem plan_of_current {σ : Type} {workflow : Workflow} {store : TextStore (StateM σ)}
    {state later : σ} {located : Located}
    (found : attempt (workflow.current store) state = (.ok located, later))
    (trigger : Trigger) (branch : String) :
    attempt (workflow.plan store trigger branch) state =
      (workflow.planFrom located trigger branch, later) := by
  rw [attempt_plan, found]

end Workflow

/-! ### The errors of a plan -/

/-- Reading fails only because some file cannot be read. -/
def TextStore.FailsToRead {σ : Type} (store : TextStore (StateM σ)) : Prop :=
  ∀ path state error later, attempt (store.read path) state = (.error error, later) →
    ∃ file fault, error = .unreadable file fault

theorem Memory.failsToRead : Memory.store.FailsToRead := by
  intro path memory error later failed
  change (memory.read path, memory) = _ at failed
  exact ⟨path, _, Memory.read_eq_error (congrArg Prod.fst failed)⟩

theorem Disk.failsToRead {σ : Type} (disk : Disk (StateM σ)) (root : Option String) :
    (disk.store root).FailsToRead := by
  intro path state error later failed
  unfold Disk.store Disk.readText at failed
  rw [attempt_bind, attempt_liftM] at failed
  simp only at failed
  cases read : (StateT.run (disk.read (resolve root path)) state).1 with
  | error fault =>
      rw [read] at failed
      cases failed
      exact ⟨_, fault, rfl⟩
  | ok bytes =>
      rw [read] at failed
      simp only at failed
      cases decoded : String.fromUTF8? bytes with
      | some text =>
          rw [decoded] at failed
          cases failed
      | none =>
          rw [decoded] at failed
          cases failed
          exact ⟨_, _, rfl⟩

theorem TextStore.FailsToRead.readTarget {σ : Type} {store : TextStore (StateM σ)}
    (fails : store.FailsToRead) {target : Target} {state later : σ} {error : Error}
    (failed : attempt (store.readTarget target) state = (.error error, later)) :
    ∃ file fault, error = .unreadable file fault := by
  unfold TextStore.readTarget at failed
  rw [attempt_bind] at failed
  rcases read : attempt (store.read target.path) state with ⟨answer | text, middle⟩
  · rw [read] at failed
    cases failed
    exact fails _ _ _ _ read
  · rw [read] at failed
    cases line : target.line with
    | none =>
        rw [line] at failed
        cases failed
    | some number =>
        rw [line] at failed
        cases failed

namespace Workflow

theorem plan_of_reads {σ : Type} {workflow : Workflow} (formed : workflow.scheme.WellFormed)
    (fits : workflow.scheme.checkRules workflow.configuration.rules = .ok ())
    {store : TextStore (StateM σ)} {state later : σ} {located : Located}
    (found : attempt (workflow.current store) state = (.ok located, later))
    {captures : List (Option (List Char))}
    (reads : workflow.scheme.readWhole? located.core.toList = some captures)
    (trigger : Trigger) (branch : String) :
    ((∃ plan, attempt (workflow.plan store trigger branch) state = (.ok plan, later)) ∨
      ∃ name digits, attempt (workflow.plan store trigger branch) state =
        (.error (.fieldOverflow name digits), later)) ∧
    ((∃ name digits, attempt (workflow.plan store trigger branch) state =
        (.error (.fieldOverflow name digits), later)) ↔
      workflow.scheme.Overflows
        (matchingRules workflow.configuration.rules trigger branch) captures) := by
  rw [plan_of_current found trigger branch]
  rcases planFrom_cases formed fits reads trigger branch with
    ⟨plan, done, fit⟩ | ⟨name, digits, failed, overflows⟩
  · rw [done]
    refine ⟨.inl ⟨plan, rfl⟩, ?_, fun overflows => absurd overflows fit⟩
    intro overflow
    obtain ⟨name, digits, impossible⟩ := overflow
    cases impossible
  · rw [failed]
    have overflow : ∃ other others,
        ((.error (.fieldOverflow name digits), later) : Except Error Plan × σ) =
          (.error (.fieldOverflow other others), later) := ⟨name, digits, rfl⟩
    exact ⟨.inr overflow, fun _ => overflows, fun _ => overflow⟩

theorem plan_error_cases {σ : Type} {workflow : Workflow}
    (formed : workflow.scheme.WellFormed)
    (fits : workflow.scheme.checkRules workflow.configuration.rules = .ok ())
    {store : TextStore (StateM σ)} {state later : σ} {error : Error} {trigger : Trigger}
    {branch : String}
    (failed : attempt (workflow.plan store trigger branch) state = (.error error, later)) :
    attempt (store.readTarget workflow.configuration.versionFile) state = (.error error, later) ∨
      (error = .noMatch ∧ attempt (workflow.current store) state = (.error error, later)) ∨
      ∃ name digits, error = .fieldOverflow name digits := by
  rcases current : attempt (workflow.current store) state with ⟨fault | located, middle⟩
  · rw [plan_of_current_error current trigger branch] at failed
    cases failed
    rcases current_error_cases formed current with unread | noMatch
    · exact .inl unread
    · exact .inr (.inl ⟨noMatch, rfl⟩)
  · obtain ⟨_, _, captures, _, _, _, reads⟩ := exists_search?_of_current formed current
    rw [plan_of_current current trigger branch] at failed
    have refused : workflow.planFrom located trigger branch = .error error :=
      congrArg Prod.fst failed
    rcases planFrom_cases formed fits reads trigger branch with
      ⟨plan, done, _⟩ | ⟨name, digits, overflow, _⟩
    · rw [done] at refused
      cases refused
    · rw [overflow] at refused
      cases refused
      exact .inr (.inr ⟨name, digits, rfl⟩)

/-- If the current version cannot be told, a plan fails with the same error. Otherwise
what was found is no mismatch and is read as it was found, and a plan is made unless a
number that was read or that the matching rules lead to does not fit. So all that can
fail is reading the file, finding a version in it, and raising its numbers. -/
theorem plan_fails_only {configuration : Configuration} {workflow : Workflow}
    (created : create configuration = .ok workflow) {σ : Type} (store : TextStore (StateM σ))
    (state : σ) (trigger : Trigger) (branch : String) :
    (∀ error later, attempt (workflow.current store) state = (.error error, later) →
      attempt (workflow.plan store trigger branch) state = (.error error, later)) ∧
    (∀ located later, attempt (workflow.current store) state = (.ok located, later) →
      Version.ofLiteral workflow.scheme located.core ≠ .error .noMatch ∧
      ∃ text found captures,
        attempt (store.readTarget configuration.versionFile) state = (.ok text, later) ∧
        workflow.scheme.search? text = some (found, captures) ∧
        located.core = found.core ∧
        workflow.scheme.readWhole? located.core.toList = some captures ∧
        ((∃ plan, attempt (workflow.plan store trigger branch) state = (.ok plan, later)) ∨
          ∃ name digits, attempt (workflow.plan store trigger branch) state =
            (.error (.fieldOverflow name digits), later)) ∧
        ((∃ name digits, attempt (workflow.plan store trigger branch) state =
            (.error (.fieldOverflow name digits), later)) ↔
          workflow.scheme.Overflows (matchingRules configuration.rules trigger branch)
            captures)) ∧
    ∀ error later, attempt (workflow.plan store trigger branch) state = (.error error, later) →
      (attempt (store.readTarget configuration.versionFile) state = (.error error, later) ∧
        (store.FailsToRead → ∃ file fault, error = .unreadable file fault)) ∨
      (error = .noMatch ∧ attempt (workflow.current store) state = (.error error, later)) ∨
      ∃ name digits, error = .fieldOverflow name digits := by
  obtain ⟨sameConfiguration, ⟨definition, _, compiled⟩, fits⟩ := create_eq_ok created
  have formed := Scheme.wellFormed_of_compile compiled
  rw [← sameConfiguration] at fits ⊢
  refine ⟨?_, ?_, ?_⟩
  · intro error later failed
    exact plan_of_current_error failed trigger branch
  · intro located later found
    obtain ⟨text, occurrence, captures, read, searched, core, reads⟩ :=
      exists_search?_of_current formed found
    constructor
    · intro refused
      rw [Version.ofLiteral_eq_noMatch_iff, reads] at refused
      cases refused
    · exact ⟨text, occurrence, captures, read, searched, core, reads,
        plan_of_reads formed fits found reads trigger branch⟩
  · intro error later failed
    rcases plan_error_cases formed fits failed with unread | others
    · exact .inl ⟨unread, fun fails => fails.readTarget unread⟩
    · exact .inr others

def raisingConfiguration : Configuration :=
  { Configuration.default with
    rules := [
      { trigger := .commit, branch := none, bump := some "minor"
        reset := some (.one "major"), front := none, back := none },
      { trigger := .commit, branch := some "main", bump := some "minor", reset := none
        front := none, back := none }] }

def raisingWorkflow : Workflow :=
  { configuration := raisingConfiguration
    scheme := ⟨"major", .field "." "minor" (.group (.field "." "build" .done) .done)⟩ }

/-- The minor number could be raised once, but not twice. -/
theorem plan_fails_only_twice :
    create raisingConfiguration = .ok raisingWorkflow ∧
    ∃ name digits,
      attempt (raisingWorkflow.plan Memory.store .commit "main")
        { files := [(Path.ofText "VERSION", "v7.18446744073709551614")], readOnly := [] } =
          (.error (.fieldOverflow name digits),
            { files := [(Path.ofText "VERSION", "v7.18446744073709551614")], readOnly := [] }) := by
  have created : create raisingConfiguration = .ok raisingWorkflow := by rfl
  have parts := (plan_fails_only created Memory.store
    { files := [(Path.ofText "VERSION", "v7.18446744073709551614")], readOnly := [] }
    .commit "main").2.1
  obtain ⟨_, text, found, captures, read, searched, core, reads, _, overflow⟩ :=
    parts { before := "v", front := none, core := "7.18446744073709551614", back := none, after := "" }
      _ rfl
  refine ⟨created, overflow.mpr (.inr ?_)⟩
  have same : raisingWorkflow.scheme.readWhole? "7.18446744073709551614".toList =
      some [some "7".toList, some "18446744073709551614".toList, none] := by rfl
  rw [same] at reads
  cases reads
  refine ⟨"minor", some "18446744073709551614".toList, ?_, ?_⟩
  · decide
  · decide

end Workflow

end Versioning
