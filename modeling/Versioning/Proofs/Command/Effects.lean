import Versioning.Proofs.Command.Output
import Versioning.Proofs.Command.Stages

/-!
What the command does to the files of a tree.

A run that carries a change out updates the targets of its configuration one after the
other, in place and from the directory of the configuration file, and touches no other
file. It succeeds exactly if it updates all of them.
-/

namespace Versioning

namespace Tree

/-- From a directory, a path leads to a file or to a name that is free for one. -/
def LeadsTo (tree : Tree) (base : List String) (path : String) (names : List String) : Prop :=
  ∃ parent name, tree.placeFrom base path = .ok (.entry parent name false) ∧
    names = parent ++ [name]

private theorem resolve_of_isAbsolute (root : Option String) {path : String}
    (absolute : Path.isAbsolute path = true) : Disk.resolve root path = path := by
  cases root with
  | none => rfl
  | some root => simp [Disk.resolve, absolute]

private theorem resolve_rootDirectory {file above path : String}
    (parent : Path.parent? file = some above)
    (relative : Path.isAbsolute path = false) :
    Disk.resolve (Command.rootDirectory (some file)) path = Path.join above path := by
  have root : Command.rootDirectory (some file) = (some above).filter (! ·.isEmpty) := by
    rw [← parent]
    rfl
  rw [root]
  by_cases empty : above = ""
  · simp [Option.filter, empty, Disk.resolve, Path.join, relative]
  · simp [Option.filter, empty, Disk.resolve, relative]

/-- Relative paths are taken from the directory of the configuration file. -/
theorem placeFrom_of_resolve {tree : Tree} {file : Option String} {base parent : List String}
    {path name : String} (starts : tree.StartsAt file base)
    (placed : tree.place (Disk.resolve (Command.rootDirectory file) path) =
      .ok (.entry parent name false)) :
    tree.placeFrom base path = .ok (.entry parent name false) := by
  cases starts with
  | workingDirectory => exact placeFrom_of_place placed
  | @beside file own base beside =>
      have inside := placeFrom_of_place beside
      obtain ⟨front, split, named, _⟩ := exists_front_of_follow inside
      obtain ⟨above, parent?, _, _⟩ := Path.exists_parent? split named
      cases absolute : Path.isAbsolute path with
      | true =>
          rw [resolve_of_isAbsolute _ absolute] at placed
          have led := placeFrom_of_place placed
          rw [placeFrom, absolute] at led ⊢
          exact led
      | false =>
          rw [resolve_rootDirectory parent? absolute] at placed
          exact placeFrom_of_join inside parent? absolute (placeFrom_of_place placed)

end Tree

namespace Workflow

variable {workflow : Workflow} {next : String} {root file : Option String}

theorem Updates.inTree {before after : Tree} {target : Target}
    (updates : workflow.Updates (Tree.textFiles root) next before target after) :
    ∃ parent name, before.place (Disk.resolve root target.path) =
        .ok (.entry parent name false) ∧
      before.SameShape after ∧
      ∀ names, names ≠ parent ++ [name] → after.node? names = before.node? names := by
  obtain ⟨read, _, written⟩ := updates
  obtain ⟨content, stored⟩ := Tree.read_of_readText read
  have made := Tree.write_of_writeText written
  obtain ⟨parent, name, _, placed, _, _, nodes⟩ := Tree.write_of_read stored made
  refine ⟨parent, name, placed, .of_write stored made, fun names other => ?_⟩
  rw [nodes, if_neg other]

/-- Updates leave every name a directory or a file that is one, and change nothing but the
files that their targets lead to. -/
theorem UpdatesAll.inTree {before after : Tree} {targets : List Target} {base : List String}
    (starts : before.StartsAt file base)
    (all : workflow.UpdatesAll (Tree.textFiles (Command.rootDirectory file)) next before targets
      after) :
    before.SameShape after ∧
      ∀ names, after.node? names ≠ before.node? names →
        ∃ target ∈ targets, before.LeadsTo base target.path names := by
  refine all.preserves (fun state => before.SameShape state ∧
    ∀ names, state.node? names ≠ before.node? names →
      ∃ target ∈ targets, before.LeadsTo base target.path names)
    ?_ ⟨.refl before, fun _ different => absurd rfl different⟩
  rintro target member state later ⟨shape, changes⟩ updates
  obtain ⟨parent, name, placed, kept, nodes⟩ := updates.inTree
  -- Since no name became a directory or ceased to be one, the path leads where it led at first.
  rw [shape.place] at placed
  refine ⟨shape.trans kept, fun names different => ?_⟩
  by_cases here : names = parent ++ [name]
  · exact ⟨target, member, parent, name, Tree.placeFrom_of_resolve starts placed, here⟩
  · rw [nodes names here] at different
    exact changes names different

end Workflow

namespace Command

def planLines (plan : Plan) : List String :=
  ["", "Version Change:"] ++
    Report.changeLines plan.current.literal plan.next plan.applied

/-- A run with a plan that changes the version updates all targets and reports them, or
stops at the first one that fails. -/
theorem onTree_of_plans {tree after : Tree} {userDirectory requested file : Option String}
    {arguments : List String} {trigger : Trigger} {branch : String} {workflow : Workflow}
    {plan : Plan} {response : Response}
    (runs : Invocation.ofArguments arguments = .run requested (.bump trigger branch false))
    (chosen : tree.configFile userDirectory requested = file)
    (plans : Plans tree file trigger branch workflow plan) (changed : plan.unchanged = false)
    (ends : onTree tree userDirectory arguments = (response, after)) :
    (workflow.UpdatesAll (Tree.textFiles (rootDirectory file)) plan.next tree
        workflow.configuration.targets after ∧
      response.code = 0 ∧ response.errors = "" ∧
      response.output = printed (planLines plan ++
        workflow.configuration.targets.map ("✓ Updated " ++ ·.path) ++
        ["✓ Bumped version to " ++ plan.next])) ∨
    ((¬ ∃ later, workflow.UpdatesAll (Tree.textFiles (rootDirectory file)) plan.next tree
        workflow.configuration.targets later) ∧
      ∃ done failing rest error,
        workflow.configuration.targets = done ++ failing :: rest ∧
        workflow.UpdatesAll (Tree.textFiles (rootDirectory file)) plan.next tree done after ∧
        workflow.FailsToUpdate (Tree.textFiles (rootDirectory file)) plan.next after failing
          error ∧
        response.code = 1 ∧ response.output = printed (planLines plan) ∧
        response.errors = "ERROR: " ++ error.report ++ "\n") := by
  subst chosen
  have backed := Tree.over_textFiles (rootDirectory (tree.configFile userDirectory requested))
  have shown : Report.plan plan false = printed (planLines plan) :=
    Report.plan_eq_printed plan false
  rw [onTree_of_run runs, run_of_prepares _ plans.toPrepares] at ends
  replace ends := (run_runBump (attempt_plan plans.planned) changed).symm.trans ends
  rcases applied : attempt (workflow.apply _ plan) tree with ⟨error | paths, later⟩
  · rw [applied] at ends
    cases ends
    obtain ⟨done, failing, rest, split, all, fails⟩ :=
      (Workflow.attempt_updateAll_eq_error_iff backed).mp applied
    refine .inr ⟨?_, done, failing, rest, error, split, all, fails, rfl, shown, rfl⟩
    rintro ⟨later, updates⟩
    -- Updates that can all be made are made, and then there is no error.
    have succeeded := (Workflow.attempt_updateAll_eq_ok_iff backed).mpr ⟨rfl, updates⟩
    rw [Workflow.apply, succeeded] at applied
    cases applied
  · rw [applied] at ends
    cases ends
    obtain ⟨rfl, all⟩ := (Workflow.attempt_updateAll_eq_ok_iff backed).mp applied
    refine .inl ⟨all, rfl, rfl, ?_⟩
    change Report.plan plan false ++ writtenReport _ plan.next = _
    rw [shown, writtenReport_eq_printed, ← printed_append, List.map_map, List.append_assoc]
    rfl

/-- A run leaves every file as it was if its arguments are wrong usage, which is exit code
two, or ask for help or the version, if they ask to print the current version or for a dry
run, if the configuration, its scheme, its rules, the version file or the plan fails, which
is exit code one, or if the plan keeps the version. Every other run leaves all names what
they are and changes no file but those that the version file and the other files of the
configuration lead to, from the directory of the configuration file. It ends with exit code
zero exactly if all of them can be updated in turn, and then it has updated them and prints,
below the change, one line for each of them in the order of the configuration. Otherwise it
has updated those before the first that cannot be read, located or written, and prints the
change and why that one failed. -/
theorem writes_only_targets (tree : Tree) (userDirectory : Option String)
    (arguments : List String) :
    ∃ response after, onTree tree userDirectory arguments = (response, after) ∧
      (Invocation.ofArguments arguments = .wrongUsage → response.code = 2) ∧
      (∀ requested request error, Invocation.ofArguments arguments = .run requested request →
        FailsEarly tree (tree.configFile userDirectory requested) request error →
        response.code = 1) ∧
      (LeavesFiles tree userDirectory arguments → after = tree) ∧
      (¬ LeavesFiles tree userDirectory arguments →
        ∃ requested file trigger branch workflow plan base shown,
          Invocation.ofArguments arguments = .run requested (.bump trigger branch false) ∧
          tree.configFile userDirectory requested = file ∧
          tree.StartsAt file base ∧
          Plans tree file trigger branch workflow plan ∧
          tree.SameShape after ∧
          (∀ names, after.node? names ≠ tree.node? names →
            ∃ target ∈ workflow.configuration.targets, tree.LeadsTo base target.path names) ∧
          shown = ["", "Version Change:", "  From: " ++ plan.current.literal,
            "  To:   " ++ plan.next] ++ Report.ruleLines plan.applied ∧
          (response.code = 0 ↔
            ∃ later, workflow.UpdatesAll (Tree.textFiles (rootDirectory file)) plan.next tree
              workflow.configuration.targets later) ∧
          (response.code = 0 →
            workflow.UpdatesAll (Tree.textFiles (rootDirectory file)) plan.next tree
              workflow.configuration.targets after ∧
            response.output = printed (shown ++
              workflow.configuration.targets.map ("✓ Updated " ++ ·.path) ++
              ["✓ Bumped version to " ++ plan.next]) ∧
            response.errors = "") ∧
          (response.code ≠ 0 →
            ∃ done failing rest error,
              workflow.configuration.targets = done ++ failing :: rest ∧
              workflow.UpdatesAll (Tree.textFiles (rootDirectory file)) plan.next tree done
                after ∧
              workflow.FailsToUpdate (Tree.textFiles (rootDirectory file)) plan.next after
                failing error ∧
              response.code = 1 ∧
              response.output = printed shown ∧
              response.errors = "ERROR: " ++ error.report ++ "\n")) := by
  rcases ends : onTree tree userDirectory arguments with ⟨response, after⟩
  refine ⟨response, after, rfl, ?_, ?_, ?_, ?_⟩
  · intro invocation
    rw [onTree, run, invocation] at ends
    cases ends
    rfl
  · intro requested request error runs fails
    obtain ⟨reason, failed⟩ := run_of_failsEarly fails
    rw [onTree_of_run runs, failed] at ends
    cases ends
    rfl
  · intro leaves
    rw [← onTree_of_leavesFiles leaves, ends]
  · intro writes
    obtain ⟨requested, trigger, branch, workflow, plan, runs, plans, changed⟩ :=
      exists_plans_of_not_leavesFiles writes
    obtain ⟨base, starts⟩ := Tree.exists_startsAt plans.loaded
    refine ⟨requested, _, trigger, branch, workflow, plan, base, planLines plan, runs, rfl, starts,
      plans, ?_⟩
    rcases onTree_of_plans runs rfl plans changed ends with
      ⟨all, code, errors, output⟩ |
      ⟨stuck, done, failing, rest, error, split, all, fails, code, printedLines⟩
    · obtain ⟨shape, changes⟩ := all.inTree starts
      exact ⟨shape, changes, rfl, ⟨fun _ => ⟨after, all⟩, fun _ => code⟩,
        fun _ => ⟨all, output, errors⟩, fun failed => absurd code failed⟩
    · obtain ⟨shape, changes⟩ := all.inTree starts
      have failed : response.code ≠ 0 := by
        rw [code]
        exact Nat.one_ne_zero
      refine ⟨shape, fun names different => ?_, rfl, ⟨fun succeeded => absurd succeeded failed,
        fun all => absurd all stuck⟩, fun succeeded => absurd succeeded failed,
        fun _ => ⟨done, failing, rest, error, split, all, fails, code, printedLines⟩⟩
      obtain ⟨target, member, leads⟩ := changes names different
      exact ⟨target, split ▸ List.mem_append_left _ member, leads⟩

def projectTree (access : Access) : Tree :=
  { nodes :=
      [ (["w"], .directory),
        (["w", "VERSION"], .file "1.2".toUTF8),
        (["w", "lock"], .file "at 1.2".toUTF8 access),
        (["w", "sub"], .directory),
        (["w", "sub", "VERSION"], .file "1.2".toUTF8),
        (["w", "sub", "notes"], .file "1.2 1.1\n1.2".toUTF8),
        (["w", "sub", "last"], .file "1.0".toUTF8),
        (["w", "sub", "bumper.toml"], .file
          ("rules = [\x7btrigger = 'commit', bump = 'minor'\x7d]\n" ++
            "files = [\x7bpath = 'notes', line = 2\x7d, \x7bpath = '../sub//notes'\x7d, " ++
            "\x7bpath = '/w/lock'\x7d, \x7bpath = 'last'\x7d]").toUTF8) ]
    workingDirectory := ["w"] }

def projectArguments : List String :=
  ["-b", "main", "-csub/bumper.toml"]

def textAt (tree : Tree) (names : List String) : Option String :=
  match tree.node? names with
  | some (.file content _) => String.fromUTF8? content
  | _ => none

def readOnlyAccess : Access :=
  { readable := true, writable := false }

/-- With a file that can be read but not written between two others, the run stops there.
If that file can be written, the run updates all of them. -/
theorem writes_only_targets_until_failure :
    ¬ LeavesFiles (projectTree readOnlyAccess) none projectArguments ∧
      (onTree (projectTree readOnlyAccess) none projectArguments).1 =
        { code := 1
          output := "\nVersion Change:\n  From: 1.2\n  To:   1.3\n  rule commit on *\n"
          errors := "ERROR: Unable to write version source '/w/lock': " ++
            "Permission denied (os error 13)\n" } ∧
      [["w", "VERSION"], ["w", "sub", "VERSION"], ["w", "sub", "notes"], ["w", "lock"],
          ["w", "sub", "last"]].map
          (textAt (onTree (projectTree readOnlyAccess) none projectArguments).2) =
        [some "1.2", some "1.3", some "1.3 1.1\n1.3", some "at 1.2", some "1.0"] ∧
      (onTree (projectTree .free) none projectArguments).1 =
        { code := 0
          output := "\nVersion Change:\n  From: 1.2\n  To:   1.3\n  rule commit on *\n" ++
            "✓ Updated VERSION\n✓ Updated notes\n✓ Updated ../sub//notes\n" ++
            "✓ Updated /w/lock\n✓ Updated last\n✓ Bumped version to 1.3\n"
          errors := "" } ∧
      [["w", "lock"], ["w", "sub", "last"]].map
          (textAt (onTree (projectTree .free) none projectArguments).2) =
        [some "at 1.3", some "1.3"] := by
  refine (and_iff_right_of_imp fun shown leaves => ?_).mpr
    ⟨by decide +kernel, by decide +kernel, by decide +kernel, by decide +kernel⟩
  obtain ⟨response, after, runs, _, _, same, _⟩ :=
    writes_only_targets (projectTree readOnlyAccess) none projectArguments
  obtain ⟨_, written, _⟩ := shown
  -- A tree that was left as it was would still show the old version.
  have untouched : textAt (projectTree readOnlyAccess) ["w", "sub", "VERSION"] ≠ some "1.3" := by
    decide +kernel
  rw [runs, same leaves] at written
  simp only [List.map_cons, List.cons.injEq] at written
  exact untouched written.2.1

end Command

end Versioning
