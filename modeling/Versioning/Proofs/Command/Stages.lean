import Versioning.Command.Run
import Versioning.Proofs.Command.Arguments
import Versioning.Proofs.Store.Tree
import Versioning.Proofs.Workflow.Updating

/-!
How far a run of the command gets.

A run reads its arguments, the configuration with its scheme and rules, and the version
file, and it plans a change. Each of these may end it, and then it has only read files.
-/

namespace Versioning

/-! ### The configuration -/

namespace Tree

def configFile (tree : Tree) (userDirectory : Option String) : Option String → Option String
  | some path => some path
  | none =>
      if tree.pathExists Configuration.localFile then
        some Configuration.localFile
      else
        (userDirectory.map Configuration.userFile).filter tree.pathExists

def configuration (tree : Tree) : Option String → Except Error Configuration
  | none => .ok Configuration.default
  | some path => tree.readText path >>= Configuration.ofToml

private theorem run_findFile (tree : Tree) (userDirectory requested : Option String) :
    StateT.run (Configuration.findFile disk userDirectory requested) tree =
      (tree.configFile userDirectory requested, tree) := by
  cases requested with
  | some path => rfl
  | none =>
      have looked := fun path : String =>
        (rfl : StateT.run (disk.pathExists path) tree = (tree.pathExists path, tree))
      unfold Configuration.findFile configFile
      refine (run_bind _ (looked _)).trans ?_
      split
      next => rfl
      next =>
        cases userDirectory.map Configuration.userFile with
        | none => rfl
        | some path =>
            refine (run_bind _ (looked path)).trans ?_
            cases found : tree.pathExists path with
            | true => simp [Option.filter, found]; rfl
            | false => simp [Option.filter, found]; rfl

theorem attempt_load {tree : Tree} {file : Option String} {answer : Except Error Configuration}
    (loads : tree.configuration file = answer) :
    attempt (Configuration.load disk file) tree = (answer, tree) := by
  subst loads
  cases file with
  | none => rfl
  | some path =>
      have known := tree.attempt_readText path
      have noted : attempt (liftM (silent (.loading path) : StateM Tree Unit)) tree =
          ((.ok (), tree) : Except Error Unit × Tree) :=
        rfl
      simp only [Configuration.load, configuration]
      rw [attempt_bind_ok _ noted]
      cases read : tree.readText path with
      | error error =>
          rw [read] at known
          exact attempt_bind_error _ known
      | ok text =>
          rw [read] at known
          exact attempt_bind_ok _ known

theorem exists_startsAt {tree : Tree} {file : Option String} {configuration : Configuration}
    (loaded : tree.configuration file = .ok configuration) : ∃ base, tree.StartsAt file base := by
  cases file with
  | none => exact ⟨_, .workingDirectory⟩
  | some path =>
      obtain ⟨text, read, _⟩ := bind_eq_ok.mp loaded
      obtain ⟨content, stored⟩ := read_of_readText read
      obtain ⟨parent, name, access, placed, _⟩ := read_eq_ok stored
      exact ⟨parent, .beside placed⟩

end Tree

namespace Command

/-! ### Stages -/

def onTree (tree : Tree) (userDirectory : Option String) (arguments : List String) :
    Response × Tree :=
  StateT.run (run Tree.disk userDirectory arguments) tree

section Stages

variable (tree : Tree) (file : Option String)

/-- The configuration is read, its scheme compiles and its rules fit the scheme. -/
structure Prepares (workflow : Workflow) : Prop where
  loaded : tree.configuration file = .ok workflow.configuration
  scheme : (workflow.configuration.schemeDefinition >>= Scheme.ofDefinition) =
    .ok workflow.scheme
  rules : workflow.scheme.checkRules workflow.configuration.rules = .ok ()

/-- A request fails before anything is written: for the configuration, its scheme, its
rules, the version file or the plan. -/
inductive FailsEarly : Request → Error → Prop
  | configuration {request : Request} {error : Error} :
      tree.configuration file = .error error → FailsEarly request error
  | scheme {request : Request} {configuration : Configuration} {error : Error} :
      tree.configuration file = .ok configuration →
      (configuration.schemeDefinition >>= Scheme.ofDefinition) = .error error →
      FailsEarly request error
  | rules {request : Request} {configuration : Configuration} {scheme : Scheme}
      {error : Error} :
      tree.configuration file = .ok configuration →
      (configuration.schemeDefinition >>= Scheme.ofDefinition) = .ok scheme →
      scheme.checkRules configuration.rules = .error error →
      FailsEarly request error
  | versionFile {request : Request} {workflow : Workflow} {error : Error} :
      Prepares tree file workflow →
      workflow.currentIn (Tree.textFiles (rootDirectory file)) tree = .error error →
      FailsEarly request error
  | plan {trigger : Trigger} {branch : String} {dryRun : Bool} {workflow : Workflow}
      {located : Located} {error : Error} :
      Prepares tree file workflow →
      workflow.currentIn (Tree.textFiles (rootDirectory file)) tree = .ok located →
      workflow.planFrom located trigger branch = .error error →
      FailsEarly (.bump trigger branch dryRun) error

structure Plans (trigger : Trigger) (branch : String) (workflow : Workflow) (plan : Plan) :
    Prop extends Prepares tree file workflow where
  planned : workflow.plannedIn (Tree.textFiles (rootDirectory file)) tree trigger branch =
    .ok plan

end Stages

theorem create_eq_bind (configuration : Configuration) :
    Workflow.create configuration =
      (configuration.schemeDefinition >>= Scheme.ofDefinition) >>= fun scheme =>
        scheme.checkRules configuration.rules >>= fun _ => pure { configuration, scheme } := by
  rw [Workflow.create_eq, bind_assoc]

private theorem create_of_rules {configuration : Configuration} {scheme : Scheme}
    {checked : Except Error Unit}
    (compiled : (configuration.schemeDefinition >>= Scheme.ofDefinition) = .ok scheme)
    (rules : scheme.checkRules configuration.rules = checked) :
    Workflow.create configuration = checked >>= fun _ => pure { configuration, scheme } := by
  rw [create_eq_bind, compiled, ← rules]
  rfl

private theorem Prepares.create {tree : Tree} {file : Option String} {workflow : Workflow}
    (prepares : Prepares tree file workflow) :
    Workflow.create workflow.configuration = .ok workflow :=
  create_of_rules prepares.scheme prepares.rules

/-! ### Runs -/

theorem run_of_configuration_error {tree : Tree} {userDirectory requested : Option String}
    {error : Error} (request : Request)
    (failed : tree.configuration (tree.configFile userDirectory requested) = .error error) :
    StateT.run (runConfigured Tree.disk userDirectory requested request) tree =
      (.failure "" (loadFailure (tree.configFile userDirectory requested) error), tree) :=
  (run_bind _ (tree.run_findFile userDirectory requested)).trans
    (run_bind _ (Tree.attempt_load failed))

theorem run_of_configuration {tree : Tree} {userDirectory requested : Option String}
    {configuration : Configuration} (request : Request)
    (succeeded : tree.configuration (tree.configFile userDirectory requested) =
      .ok configuration) :
    StateT.run (runConfigured Tree.disk userDirectory requested request) tree =
      StateT.run (match Workflow.create configuration with
        | .error error => return .failure "" error.report
        | .ok workflow =>
            runRequest workflow
              (Tree.disk.store (rootDirectory (tree.configFile userDirectory requested)))
              request) tree :=
  (run_bind _ (tree.run_findFile userDirectory requested)).trans
    ((run_bind _ (Tree.attempt_load succeeded)).trans
      (run_bind _ (Workflow.run_forM_silent (Workflow.setupLog configuration) tree)))

theorem run_of_prepares {tree : Tree} {userDirectory requested : Option String}
    {workflow : Workflow} (request : Request)
    (prepares : Prepares tree (tree.configFile userDirectory requested) workflow) :
    StateT.run (runConfigured Tree.disk userDirectory requested request) tree =
      StateT.run (runRequest workflow
        (Tree.disk.store (rootDirectory (tree.configFile userDirectory requested))) request)
        tree := by
  rw [run_of_configuration request prepares.loaded, prepares.create]

section Requests

variable {tree : Tree} {root : Option String} {workflow : Workflow}

theorem attempt_current {answer : Except Error Located}
    (shows : workflow.currentIn (Tree.textFiles root) tree = answer) :
    attempt (workflow.current (Tree.disk.store root)) tree = (answer, tree) := by
  subst shows
  exact Workflow.attempt_current_over (Tree.over_textFiles root) workflow tree

private theorem run_runCurrent_error {error : Error}
    (failed : workflow.currentIn (Tree.textFiles root) tree = .error error) :
    StateT.run (runCurrent workflow (Tree.disk.store root)) tree =
      (.failure "" error.report, tree) :=
  run_bind _ (attempt_current failed)

theorem run_runCurrent {located : Located}
    (found : workflow.currentIn (Tree.textFiles root) tree = .ok located) :
    StateT.run (runCurrent workflow (Tree.disk.store root)) tree =
      (.success (located.literal ++ "\n"), tree) :=
  run_bind _ (attempt_current found)

variable {trigger : Trigger} {branch : String}

theorem attempt_plan {answer : Except Error Plan}
    (plans : workflow.plannedIn (Tree.textFiles root) tree trigger branch = answer) :
    attempt (workflow.plan (Tree.disk.store root) trigger branch) tree = (answer, tree) := by
  subst plans
  exact Workflow.attempt_plan_over (Tree.over_textFiles root) workflow trigger branch tree

end Requests

section Bumps

variable {σ : Type} {workflow : Workflow} {store : TextStore (StateM σ)} {state later : σ}
  {trigger : Trigger} {branch : String}

theorem run_runBump_error {error : Error} (dryRun : Bool)
    (failed : attempt (workflow.plan store trigger branch) state = (.error error, later)) :
    StateT.run (runBump workflow store trigger branch dryRun) state =
      (.failure "" error.report, later) :=
  run_bind _ failed

variable {plan : Plan}
  (planned : attempt (workflow.plan store trigger branch) state = (.ok plan, later))

include planned

theorem run_runBump_dry :
    StateT.run (runBump workflow store trigger branch true) state =
      (.success (Report.plan plan true ++ Report.status "Dry run: no files were written"),
        later) :=
  run_bind _ planned

theorem run_runBump_unchanged (unchanged : plan.unchanged = true) :
    StateT.run (runBump workflow store trigger branch false) state =
      (.success (Report.plan plan false ++ Report.status s!"Version {plan.next} unchanged"),
        later) := by
  refine (run_bind _ planned).trans ?_
  simp only [Bool.false_eq_true, if_false, unchanged, if_true]
  rfl

theorem run_runBump (changed : plan.unchanged = false) :
    StateT.run (runBump workflow store trigger branch false) state =
      match attempt (workflow.apply store plan) later with
      | (.error error, last) => (.failure (Report.plan plan false) error.report, last)
      | (.ok paths, last) =>
          (.success (Report.plan plan false ++ writtenReport paths plan.next), last) := by
  refine (run_bind _ planned).trans ?_
  simp only [Bool.false_eq_true, if_false, changed]
  rcases applied : attempt (workflow.apply store plan) later with ⟨error | paths, last⟩
  · exact run_bind _ applied
  · exact run_bind _ applied

end Bumps

/-! ### Runs that only read -/

theorem failsEarly_or_prepares (tree : Tree) (file : Option String) :
    (∃ error, ∀ request, FailsEarly tree file request error) ∨
      ∃ workflow, Prepares tree file workflow := by
  cases loaded : tree.configuration file with
  | error error => exact .inl ⟨error, fun _ => .configuration loaded⟩
  | ok configuration =>
      cases compiled : configuration.schemeDefinition >>= Scheme.ofDefinition with
      | error error => exact .inl ⟨error, fun _ => .scheme loaded compiled⟩
      | ok scheme =>
          cases rules : scheme.checkRules configuration.rules with
          | error error => exact .inl ⟨error, fun _ => .rules loaded compiled rules⟩
          | ok _ => exact .inr ⟨{ configuration, scheme }, loaded, compiled, rules⟩

section Reading

variable {tree : Tree} {userDirectory requested : Option String}

theorem run_of_failsEarly {request : Request} {error : Error}
    (fails : FailsEarly tree (tree.configFile userDirectory requested) request error) :
    ∃ reason, StateT.run (runConfigured Tree.disk userDirectory requested request) tree =
      (.failure "" reason, tree) := by
  cases fails with
  | configuration failed => exact ⟨_, run_of_configuration_error request failed⟩
  | scheme loaded failed =>
      rw [run_of_configuration request loaded, create_eq_bind, failed]
      exact ⟨_, rfl⟩
  | rules loaded compiled failed =>
      rw [run_of_configuration request loaded, create_of_rules compiled failed]
      exact ⟨_, rfl⟩
  | versionFile prepares failed =>
      rw [run_of_prepares request prepares]
      cases request with
      | current => exact ⟨_, run_runCurrent_error failed⟩
      | bump trigger branch dryRun =>
          exact ⟨_, run_runBump_error dryRun (attempt_plan (Workflow.plannedIn_of_error failed _ _))⟩
  | plan prepares found failed =>
      rw [run_of_prepares _ prepares]
      have planned := (Workflow.plannedIn_of_ok found _ _).trans failed
      exact ⟨_, run_runBump_error _ (attempt_plan planned)⟩

/-- A request for the current version, or for a plan only, writes nothing. -/
private theorem run_of_reading {request : Request}
    (reading : request = .current ∨ ∃ trigger branch, request = .bump trigger branch true) :
    (StateT.run (runConfigured Tree.disk userDirectory requested request) tree).2 = tree := by
  rcases failsEarly_or_prepares tree (tree.configFile userDirectory requested) with
    ⟨error, fails⟩ | ⟨workflow, prepares⟩
  · obtain ⟨reason, ends⟩ := run_of_failsEarly (fails request)
    rw [ends]
  · rw [run_of_prepares request prepares]
    rcases reading with rfl | ⟨trigger, branch, rfl⟩
    · cases current : workflow.currentIn (Tree.textFiles (rootDirectory
          (tree.configFile userDirectory requested))) tree with
      | error error => exact congrArg Prod.snd (run_runCurrent_error current)
      | ok located => exact congrArg Prod.snd (run_runCurrent current)
    · cases planned : workflow.plannedIn (Tree.textFiles (rootDirectory
          (tree.configFile userDirectory requested))) tree trigger branch with
      | error error => exact congrArg Prod.snd (run_runBump_error true (attempt_plan planned))
      | ok plan => exact congrArg Prod.snd (run_runBump_dry (attempt_plan planned))

end Reading

inductive LeavesFiles (tree : Tree) (userDirectory : Option String) (arguments : List String) :
    Prop
  | wrongUsage : Invocation.ofArguments arguments = .wrongUsage →
      LeavesFiles tree userDirectory arguments
  | help : Invocation.ofArguments arguments = .help → LeavesFiles tree userDirectory arguments
  | version : Invocation.ofArguments arguments = .version →
      LeavesFiles tree userDirectory arguments
  | current : "--current" ∈ arguments → LeavesFiles tree userDirectory arguments
  | dryRun : "--dry-run" ∈ arguments → LeavesFiles tree userDirectory arguments
  | failure {requested : Option String} {request : Request} {error : Error} :
      Invocation.ofArguments arguments = .run requested request →
      FailsEarly tree (tree.configFile userDirectory requested) request error →
      LeavesFiles tree userDirectory arguments
  | unchanged {requested : Option String} {trigger : Trigger} {branch : String} {dryRun : Bool}
      {workflow : Workflow} {plan : Plan} :
      Invocation.ofArguments arguments = .run requested (.bump trigger branch dryRun) →
      Plans tree (tree.configFile userDirectory requested) trigger branch workflow plan →
      plan.unchanged = true → LeavesFiles tree userDirectory arguments

section Whole

variable {tree : Tree} {userDirectory : Option String} {arguments : List String}

theorem onTree_of_run {requested : Option String} {request : Request}
    (runs : Invocation.ofArguments arguments = .run requested request) :
    onTree tree userDirectory arguments =
      StateT.run (runConfigured Tree.disk userDirectory requested request) tree := by
  rw [onTree, run, runs]

private theorem onTree_of_asked (asked : "--current" ∈ arguments ∨ "--dry-run" ∈ arguments) :
    (onTree tree userDirectory arguments).2 = tree := by
  cases invocation : Invocation.ofArguments arguments with
  | help => rw [onTree, run, invocation]; rfl
  | version => rw [onTree, run, invocation]; rfl
  | wrongUsage => rw [onTree, run, invocation]; rfl
  | run requested request =>
      rw [onTree_of_run invocation]
      apply run_of_reading
      rcases request_of_ofArguments invocation with ⟨rfl, _⟩ | ⟨trigger, branch, bump, rfl⟩
      · exact .inl rfl
      · have dry := asked.resolve_left bump
        exact .inr ⟨trigger, branch, by rw [List.contains_iff_mem.mpr dry]⟩

theorem onTree_of_leavesFiles (leaves : LeavesFiles tree userDirectory arguments) :
    (onTree tree userDirectory arguments).2 = tree := by
  cases leaves with
  | wrongUsage invocation => rw [onTree, run, invocation]; rfl
  | help invocation => rw [onTree, run, invocation]; rfl
  | version invocation => rw [onTree, run, invocation]; rfl
  | current asked => exact onTree_of_asked (.inl asked)
  | dryRun asked => exact onTree_of_asked (.inr asked)
  | failure runs fails =>
      obtain ⟨reason, ends⟩ := run_of_failsEarly fails
      rw [onTree_of_run runs, ends]
  | @unchanged requested trigger branch dryRun workflow plan runs plans same =>
      rw [onTree_of_run runs]
      cases dryRun with
      | true => exact run_of_reading (.inr ⟨trigger, branch, rfl⟩)
      | false =>
          rw [run_of_prepares _ plans.toPrepares]
          exact congrArg Prod.snd (run_runBump_unchanged (attempt_plan plans.planned) same)

/-- Every other run has a plan that changes the version, and carries it out. -/
theorem exists_plans_of_not_leavesFiles (writes : ¬ LeavesFiles tree userDirectory arguments) :
    ∃ requested trigger branch workflow plan,
      Invocation.ofArguments arguments = .run requested (.bump trigger branch false) ∧
        Plans tree (tree.configFile userDirectory requested) trigger branch workflow plan ∧
        plan.unchanged = false := by
  cases invocation : Invocation.ofArguments arguments with
  | help => exact absurd (.help invocation) writes
  | version => exact absurd (.version invocation) writes
  | wrongUsage => exact absurd (.wrongUsage invocation) writes
  | run requested request =>
      have fails : ∀ {error}, ¬ FailsEarly tree (tree.configFile userDirectory requested)
          request error :=
        fun failed => writes (.failure invocation failed)
      rcases request_of_ofArguments invocation with ⟨_, asked⟩ | ⟨trigger, branch, _, rfl⟩
      · exact absurd (.current asked) writes
      · cases dry : arguments.contains "--dry-run" with
        | true => exact absurd (.dryRun (List.contains_iff_mem.mp dry)) writes
        | false =>
            rw [dry] at invocation fails
            rcases failsEarly_or_prepares tree (tree.configFile userDirectory requested) with
              ⟨error, failed⟩ | ⟨workflow, prepares⟩
            · exact absurd (failed _) fails
            · cases current : workflow.currentIn (Tree.textFiles (rootDirectory
                  (tree.configFile userDirectory requested))) tree with
              | error error => exact absurd (.versionFile prepares current) fails
              | ok located =>
                  cases planned : workflow.planFrom located trigger branch with
                  | error error => exact absurd (.plan prepares current planned) fails
                  | ok plan =>
                      have plans : Plans tree (tree.configFile userDirectory requested) trigger
                          branch workflow plan :=
                        { toPrepares := prepares
                          planned := (Workflow.plannedIn_of_ok current _ _).trans planned }
                      cases same : plan.unchanged with
                      | true => exact absurd (.unchanged invocation plans same) writes
                      | false =>
                          exact ⟨requested, trigger, branch, workflow, plan, rfl, plans, same⟩

end Whole

end Command

end Versioning
