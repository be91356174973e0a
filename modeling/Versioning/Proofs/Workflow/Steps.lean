import Versioning.Proofs.Store.Files
import Versioning.Workflow

/-!
Targets that are updated in turn.

One update reads the file of its target, finds the version in what the target selects,
and writes the file with the next version in its place. It fails where one of these three
cannot be done, and then changes nothing. So a row of updates stops at the first target
that fails, in the state that the targets before it have left.
-/

namespace Versioning

namespace Workflow

section Relations

variable {σ : Type} (workflow : Workflow) (files : TextFiles σ) (next : String)

inductive Updates (before : σ) (target : Target) : σ → Prop
  | written {text : String} {located : Located} {after : σ} :
      files.read before target.path = .ok text →
      workflow.locate (target.select text) = .ok located →
      files.write before target.path (target.replace text (located.splice next)) = .ok after →
      Updates before target after

inductive FailsToUpdate (before : σ) (target : Target) : Error → Prop
  | unreadable {error : Error} :
      files.read before target.path = .error error → FailsToUpdate before target error
  | unmatched {text : String} :
      files.read before target.path = .ok text →
      workflow.scheme.find? (target.select text) = none →
      FailsToUpdate before target .noMatch
  | unwritable {text : String} {located : Located} {error : Error} :
      files.read before target.path = .ok text →
      workflow.locate (target.select text) = .ok located →
      files.write before target.path (target.replace text (located.splice next)) =
        .error error →
      FailsToUpdate before target error

inductive UpdatesAll : σ → List Target → σ → Prop
  | done (state : σ) : UpdatesAll state [] state
  | next {before middle after : σ} {target : Target} {targets : List Target} :
      workflow.Updates files next before target middle → UpdatesAll middle targets after →
      UpdatesAll before (target :: targets) after

def currentIn (state : σ) : Except Error Located := do
  let text ← files.read state workflow.configuration.versionFile.path
  workflow.locate (workflow.configuration.versionFile.select text)

def plannedIn (state : σ) (trigger : Trigger) (branch : String) : Except Error Plan := do
  let located ← workflow.currentIn files state
  workflow.planFrom located trigger branch

def updatedIn (before : σ) (target : Target) : Except Error σ := do
  let text ← files.read before target.path
  let located ← workflow.locate (target.select text)
  files.write before target.path (target.replace text (located.splice next))

end Relations

variable {σ : Type} {workflow : Workflow} {files : TextFiles σ} {next : String}

/-! ### Planning -/

theorem locate_eq_error_iff (workflow : Workflow) (text : String) (error : Error) :
    workflow.locate text = .error error ↔
      workflow.scheme.find? text = none ∧ error = .noMatch := by
  unfold locate Scheme.locate
  cases workflow.scheme.find? text with
  | none => simp [eq_comm]
  | some found => simp

/-! What nobody listens to changes nothing. -/

theorem run_forM_silent (notices : List Notice) (state : σ) :
    StateT.run (notices.forM silent : StateM σ PUnit) state = (⟨⟩, state) := by
  induction notices with
  | nil => rfl
  | cons notice notices ih => exact ih

theorem attempt_locateIn (workflow : Workflow) (store : TextStore (StateM σ))
    (target : Target) (state : σ) :
    attempt (workflow.locateIn store target) state =
      match attempt (store.readTarget target) state with
      | (.ok text, later) => (workflow.locate text, later)
      | (.error error, later) => (.error error, later) := by
  unfold locateIn
  rw [attempt_bind]
  rcases attempt (store.readTarget target) state with ⟨error | text, later⟩
  · rfl
  · simp only
    rw [attempt_bind]
    cases workflow.locate text with
    | error error => rfl
    | ok located => rfl

theorem attempt_plan (workflow : Workflow) (store : TextStore (StateM σ)) (trigger : Trigger)
    (branch : String) (state : σ) :
    attempt (workflow.plan store trigger branch) state =
      match attempt (workflow.current store) state with
      | (.ok located, later) => (workflow.planFrom located trigger branch, later)
      | (.error error, later) => (.error error, later) := by
  unfold plan
  rw [attempt_bind]
  rcases attempt (workflow.current store) state with ⟨error | located, later⟩
  · rfl
  · simp only
    rw [attempt_bind, attempt_liftM, run_forM_silent]
    rfl

theorem attempt_update_eq (workflow : Workflow) (store : TextStore (StateM σ)) (next : String)
    (target : Target) (state : σ) :
    attempt (workflow.update store next target) state =
      match attempt (workflow.locateIn store target) state with
      | (.ok located, later) => attempt (store.writeTarget target (located.splice next)) later
      | (.error error, later) => (.error error, later) := by
  unfold update
  rw [attempt_bind, attempt_tryCatch]
  rcases attempt (workflow.locateIn store target) state with ⟨error | located, later⟩
  · rfl
  · simp only
    rw [attempt_bind]
    rcases attempt (store.writeTarget target (located.splice next)) later with ⟨error | _, last⟩
    · rfl
    · rfl

theorem attempt_locateIn_over {store : TextStore (StateM σ)} (backed : store.Over files)
    (workflow : Workflow) (target : Target) (state : σ) :
    attempt (workflow.locateIn store target) state =
      ((files.read state target.path).bind fun text => workflow.locate (target.select text),
        state) := by
  rw [attempt_locateIn, backed.attempt_readTarget]
  cases files.read state target.path with
  | error error => rfl
  | ok text => rfl

theorem attempt_current_over {store : TextStore (StateM σ)} (backed : store.Over files)
    (workflow : Workflow) (state : σ) :
    attempt (workflow.current store) state = (workflow.currentIn files state, state) :=
  attempt_locateIn_over backed workflow workflow.configuration.versionFile state

theorem plannedIn_of_error {state : σ} {error : Error}
    (failed : workflow.currentIn files state = .error error) (trigger : Trigger)
    (branch : String) : workflow.plannedIn files state trigger branch = .error error := by
  rw [plannedIn, failed]
  rfl

theorem plannedIn_of_ok {state : σ} {located : Located}
    (found : workflow.currentIn files state = .ok located) (trigger : Trigger)
    (branch : String) :
    workflow.plannedIn files state trigger branch =
      workflow.planFrom located trigger branch := by
  rw [plannedIn, found]
  rfl

theorem current_of_planFrom {located : Located} {trigger : Trigger} {branch : String}
    {plan : Plan} (planned : workflow.planFrom located trigger branch = .ok plan) :
    plan.current = located := by
  obtain ⟨version, _, rest⟩ := bind_eq_ok.mp planned
  obtain ⟨outcome, _, same⟩ := bind_eq_ok.mp rest
  cases same
  rfl

/-- A plan is made without any change to the files. -/
theorem attempt_plan_over {store : TextStore (StateM σ)} (backed : store.Over files)
    (workflow : Workflow) (trigger : Trigger) (branch : String) (state : σ) :
    attempt (workflow.plan store trigger branch) state =
      (workflow.plannedIn files state trigger branch, state) := by
  rw [attempt_plan, attempt_current_over backed]
  cases current : workflow.currentIn files state with
  | error error => rw [plannedIn_of_error current]
  | ok located => rw [plannedIn_of_ok current]

/-! ### One update -/

theorem updatedIn_eq_ok_iff {before after : σ} {target : Target} :
    workflow.updatedIn files next before target = .ok after ↔
      workflow.Updates files next before target after := by
  constructor
  · intro done
    obtain ⟨text, read, rest⟩ := bind_eq_ok.mp done
    obtain ⟨located, locates, written⟩ := bind_eq_ok.mp rest
    exact .written read locates written
  · rintro ⟨read, locates, written⟩
    exact bind_eq_ok.mpr ⟨_, read, bind_eq_ok.mpr ⟨_, locates, written⟩⟩

theorem updatedIn_eq_error_iff {before : σ} {target : Target} {error : Error} :
    workflow.updatedIn files next before target = .error error ↔
      workflow.FailsToUpdate files next before target error := by
  constructor
  · intro failed
    rcases bind_eq_error.mp failed with unread | ⟨text, read, rest⟩
    · exact .unreadable unread
    · rcases bind_eq_error.mp rest with unmatched | ⟨located, locates, unwritten⟩
      · obtain ⟨nowhere, rfl⟩ := (workflow.locate_eq_error_iff _ _).mp unmatched
        exact .unmatched read nowhere
      · exact .unwritable read locates unwritten
  · intro fails
    cases fails with
    | unreadable unread => exact bind_eq_error.mpr (.inl unread)
    | unmatched read nowhere =>
        have unmatched := (workflow.locate_eq_error_iff _ _).mpr ⟨nowhere, rfl⟩
        exact bind_eq_error.mpr (.inr ⟨_, read, bind_eq_error.mpr (.inl unmatched)⟩)
    | unwritable read locates unwritten =>
        exact bind_eq_error.mpr
          (.inr ⟨_, read, bind_eq_error.mpr (.inr ⟨_, locates, unwritten⟩)⟩)

/-- An update that fails leaves the files as they were. -/
theorem attempt_update {store : TextStore (StateM σ)} (backed : store.Over files)
    (workflow : Workflow) (next : String) (target : Target) (state : σ) :
    attempt (workflow.update store next target) state =
      stepped state (workflow.updatedIn files next state target) := by
  rw [attempt_update_eq, attempt_locateIn_over backed, updatedIn]
  cases read : files.read state target.path with
  | error error => rfl
  | ok text =>
      simp only [Except.bind, bind]
      cases workflow.locate (target.select text) with
      | error error => rfl
      | ok found => exact backed.attempt_writeTarget (found.splice next) read

theorem attempt_update_eq_ok_iff {store : TextStore (StateM σ)} (backed : store.Over files)
    {target : Target} {before after : σ} :
    attempt (workflow.update store next target) before = (.ok (), after) ↔
      workflow.Updates files next before target after := by
  rw [attempt_update backed, stepped_eq_ok_iff, updatedIn_eq_ok_iff]

theorem attempt_update_eq_error_iff {store : TextStore (StateM σ)} (backed : store.Over files)
    {target : Target} {before after : σ} {error : Error} :
    attempt (workflow.update store next target) before = (.error error, after) ↔
      workflow.FailsToUpdate files next before target error ∧ after = before := by
  rw [attempt_update backed, stepped_eq_error_iff, updatedIn_eq_error_iff]

/-! ### Updates in turn -/

theorem attempt_updateAll_eq_ok_iff {store : TextStore (StateM σ)} (backed : store.Over files)
    {targets : List Target} {before after : σ} {paths : List String} :
    attempt (workflow.updateAll store next targets) before = (.ok paths, after) ↔
      paths = targets.map Target.path ∧ workflow.UpdatesAll files next before targets after := by
  induction targets generalizing before paths with
  | nil =>
      constructor
      · intro same
        cases same
        exact ⟨rfl, .done _⟩
      · rintro ⟨rfl, ⟨⟩⟩
        rfl
  | cons target targets ih =>
      rw [updateAll]
      constructor
      · intro done
        obtain ⟨_, middle, first, rest⟩ := attempt_bind_eq_ok.mp done
        obtain ⟨others, later, tail, result⟩ := attempt_bind_eq_ok.mp rest
        cases result
        obtain ⟨rfl, all⟩ := ih.mp tail
        exact ⟨rfl, .next ((attempt_update_eq_ok_iff backed).mp first) all⟩
      · rintro ⟨rfl, all⟩
        cases all with
        | next updates all =>
            have first := (attempt_update_eq_ok_iff backed).mpr updates
            have tail := ih.mpr ⟨rfl, all⟩
            exact attempt_bind_eq_ok.mpr
              ⟨(), _, first, attempt_bind_eq_ok.mpr ⟨_, _, tail, rfl⟩⟩

theorem attempt_updateAll_eq_error_iff {store : TextStore (StateM σ)} (backed : store.Over files)
    {targets : List Target} {before after : σ} {error : Error} :
    attempt (workflow.updateAll store next targets) before = (.error error, after) ↔
      ∃ done failing rest, targets = done ++ failing :: rest ∧
        workflow.UpdatesAll files next before done after ∧
        workflow.FailsToUpdate files next after failing error := by
  induction targets generalizing before with
  | nil =>
      constructor
      · intro impossible
        cases impossible
      · rintro ⟨done, failing, rest, split, _⟩
        simp at split
  | cons target targets ih =>
      rw [updateAll]
      constructor
      · intro failed
        rcases attempt_bind_eq_error.mp failed with here | ⟨_, middle, first, rest⟩
        · obtain ⟨fails, rfl⟩ := (attempt_update_eq_error_iff backed).mp here
          exact ⟨[], target, targets, rfl, .done _, fails⟩
        · rcases attempt_bind_eq_error.mp rest with tail | ⟨_, _, _, impossible⟩
          · obtain ⟨done, failing, others, rfl, all, fails⟩ := ih.mp tail
            have updates := (attempt_update_eq_ok_iff backed).mp first
            exact ⟨target :: done, failing, others, rfl, .next updates all, fails⟩
          · cases impossible
      · rintro ⟨done, failing, rest, split, all, fails⟩
        cases all with
        | done =>
            cases split
            have here := (attempt_update_eq_error_iff backed).mpr ⟨fails, rfl⟩
            exact attempt_bind_eq_error.mpr (.inl here)
        | next updates all =>
            cases split
            have first := (attempt_update_eq_ok_iff backed).mpr updates
            have tail := ih.mpr ⟨_, failing, rest, rfl, all, fails⟩
            exact attempt_bind_eq_error.mpr
              (.inr ⟨(), _, first, attempt_bind_eq_error.mpr (.inl tail)⟩)

/-- What each update of a target keeps is kept by all of them. -/
theorem UpdatesAll.preserves {targets : List Target} {before after : σ}
    (all : workflow.UpdatesAll files next before targets after) (kept : σ → Prop)
    (step : ∀ target ∈ targets, ∀ state later, kept state →
      workflow.Updates files next state target later → kept later)
    (start : kept before) : kept after := by
  induction all with
  | done => exact start
  | next first all ih =>
      have steps := List.forall_mem_cons.mp step
      exact ih steps.2 (steps.1 _ _ start first)

theorem UpdatesAll.of_locate {other : Workflow}
    (same : ∀ text, other.locate text = workflow.locate text) {targets : List Target}
    {before after : σ} (all : workflow.UpdatesAll files next before targets after) :
    other.UpdatesAll files next before targets after := by
  induction all with
  | done => exact .done _
  | next first _ ih =>
      obtain ⟨read, locates, written⟩ := first
      exact .next (.written read ((same _).trans locates) written) ih

end Workflow

end Versioning
