import Versioning.Proofs.Command.Effects
import Versioning.Proofs.Command.Logging
import Versioning.Proofs.Located

/-!
A dry run and the run that it stands for.

The flag for a dry run says nothing else, so both runs have the same request but for it.
Up to the plan they do the same and fail in the same way. The plan is then shown by both,
and only the one that is not dry carries it out.
-/

namespace Versioning

namespace Command

/-! ### One more flag -/

def Given.dry (given : Given) : Given :=
  { given with dryRun := true }

def Request.dry : Request → Request
  | .current => .current
  | .bump trigger branch _ => .bump trigger branch true

def Invocation.dry : Invocation → Invocation
  | .run configFile request => .run configFile request.dry
  | other => other

/-- The flag for a dry run is added to arguments, where it is read as that flag. -/
structure AddsDryRun (arguments dryArguments : List String) : Prop where
  added : ∃ front back, arguments = front ++ back ∧ dryArguments = front ++ "--dry-run" :: back
  accepted : Invocation.ofArguments dryArguments ≠ .wrongUsage

namespace Given

private theorem invocation_dry (given : Given) : given.dry.invocation = given.invocation.dry := by
  unfold invocation dry
  cases given.current with
  | true => rfl
  | false =>
      cases given.branch with
      | none => rfl
      | some branch => rfl

private theorem once_dry (before : Bool) (later : Given) :
    (if before then .error .wrongUsage else .ok later.dry : Collected) =
      Except.map dry (if before then .error .wrongUsage else .ok later) := by
  cases before with
  | true => rfl
  | false => rfl

private theorem setFlag_dry (given : Given) {flag : Flag} (other : flag ≠ .dryRun) :
    given.dry.setFlag flag = (given.setFlag flag).map dry := by
  cases flag with
  | help => rfl
  | version => rfl
  | dryRun => exact absurd rfl other
  | current => exact once_dry given.current { given with current := true }
  | verbose => exact once_dry given.verbose { given with verbose := true }

private theorem setParameter_dry (given : Given) (parameter : Parameter) (value : String) :
    given.dry.setParameter parameter value = (given.setParameter parameter value).map dry := by
  cases parameter with
  | config => exact once_dry given.config.isSome { given with config := some value }
  | branch => exact once_dry given.branch.isSome { given with branch := some value }
  | trigger =>
      simp only [setParameter, dry]
      split
      next => rfl
      next => rfl

def dryResult (result : Given × Option Parameter) : Given × Option Parameter :=
  (result.1.dry, result.2)

private theorem setParameter_dry_result (given : Given) (parameter : Parameter) (value : String) :
    (do return (← given.dry.setParameter parameter value, none)) =
      Except.map dryResult (do return (← given.setParameter parameter value, none)) := by
  rw [setParameter_dry]
  cases given.setParameter parameter value with
  | error invocation => rfl
  | ok later => rfl

private theorem readCluster_dry (given : Given) (letters : List Char) :
    given.dry.readCluster letters = (given.readCluster letters).map dryResult := by
  induction letters generalizing given with
  | nil => rfl
  | cons letter rest ih =>
      unfold readCluster
      split
      next => rfl
      next flag named =>
        have other : flag ≠ .dryRun := by
          rintro rfl
          exact Flag.spelled_dryRun letter named
        rw [given.setFlag_dry other]
        cases given.setFlag flag with
        | error invocation => rfl
        | ok later => exact ih later
      next parameter named =>
        split
        next => rfl
        next => exact given.setParameter_dry_result parameter _
        next => exact given.setParameter_dry_result parameter _

private theorem readLong_dry (given : Given) {text : List Char}
    (other : String.ofList text ≠ Flag.dryRun.name) :
    given.dry.readLong text = (given.readLong text).map dryResult := by
  have spelled := ofList_eq_name_iff text .dryRun
  simp only [readLong]
  split
  next flag named empty =>
    have different : flag ≠ .dryRun := by
      rintro rfl
      exact other (spelled.mpr ⟨named, empty⟩)
    rw [given.setFlag_dry different]
    cases given.setFlag flag with
    | error invocation => rfl
    | ok later => rfl
  next => rfl
  next parameter _ value _ _ => exact given.setParameter_dry_result parameter _
  next => rfl

private theorem readOption_dry (given : Given) {argument : String}
    (other : argument ≠ "--dry-run") :
    given.dry.readOption argument.toList = (given.readOption argument.toList).map dryResult := by
  unfold readOption
  split
  next text spelled =>
    refine given.readLong_dry fun same => other ?_
    rw [← String.toList_inj, spelled, ← String.toList_ofList (l := text), same]
    rfl
  next => exact given.readCluster_dry _
  next => rfl

/-- Whatever is read after the flag for a dry run is read as it would be without it. -/
private theorem readAll_dry {arguments : List String} (free : "--dry-run" ∉ arguments)
    (given : Given)
    (waiting : Option Parameter) :
    given.dry.readAll waiting arguments = (given.readAll waiting arguments).map dry := by
  induction arguments generalizing given waiting with
  | nil =>
      cases waiting with
      | none => rfl
      | some parameter => rfl
  | cons argument arguments ih =>
      rw [List.mem_cons, not_or] at free
      cases waiting with
      | none =>
          rw [readAll, readAll]
          split
          next =>
            split
            next => rfl
            next => rfl
          next =>
            rw [given.readOption_dry (Ne.symm free.1)]
            cases given.readOption argument.toList with
            | error invocation => rfl
            | ok result => exact ih free.2 result.1 result.2
      | some parameter =>
          rw [readAll, readAll]
          split
          next => rfl
          next =>
            rw [setParameter_dry]
            cases given.setParameter parameter argument with
            | error invocation => rfl
            | ok later => exact ih free.2 later none

private theorem readAll_dryRun (given : Given) (notDry : given.dryRun = false)
    (arguments : List String) :
    given.readAll none ("--dry-run" :: arguments) = given.dry.readAll none arguments := by
  have read : given.readOption "--dry-run".toList = .ok (given.dry, none) := by
    change (do return (← given.setFlag .dryRun, none)) = _
    rw [setFlag, notDry]
    rfl
  rw [readAll, if_neg (by decide), read]
  rfl

/-- The flag for a dry run can stand anywhere but behind a parameter that waits for its
value and behind the end of the options. -/
private theorem readAll_insert {front back : List String} (free : "--dry-run" ∉ front ++ back)
    (given : Given) (notDry : given.dryRun = false) (waiting : Option Parameter) :
    given.readAll waiting (front ++ "--dry-run" :: back) = .error .wrongUsage ∨
      given.readAll waiting (front ++ "--dry-run" :: back) =
        (given.readAll waiting (front ++ back)).map dry := by
  induction front generalizing given waiting with
  | nil =>
      cases waiting with
      | some parameter =>
          left
          rfl
      | none =>
          right
          exact (given.readAll_dryRun notDry back).trans (readAll_dry free given none)
  | cons argument front ih =>
      rw [List.cons_append, List.mem_cons, not_or] at free
      rw [List.cons_append, List.cons_append]
      cases waiting with
      | none =>
          rw [readAll, readAll]
          split
          next =>
            left
            simp
          next =>
            have sets := given.reads_readOption Flag.spelled_dryRun argument.toList
            cases read : given.readOption argument.toList with
            | error invocation => exact .inr rfl
            | ok result =>
                rw [read, String.ofList_toList] at sets
                cases sets with
                | goesOn sets =>
                    have other : (argument == Flag.dryRun.argument) = false :=
                      beq_eq_false_iff_ne.mpr (Ne.symm free.1)
                    rw [other, Bool.or_false] at sets
                    exact ih free.2 result.1 (sets.trans notDry) result.2
      | some parameter =>
          rw [readAll, readAll]
          split
          next => exact .inr rfl
          next =>
            have sets := given.reads_setParameter parameter argument .dryRun
            cases set : given.setParameter parameter argument with
            | error invocation => exact .inr rfl
            | ok later =>
                rw [set] at sets
                cases sets with
                | goesOn sets => exact ih free.2 later (sets.trans notDry) none

end Given

private theorem Invocation.dry_of_ne_run {invocation : Invocation}
    (settles : ∀ configFile request, invocation ≠ .run configFile request) :
    invocation.dry = invocation := by
  cases invocation with
  | run configFile request => exact absurd rfl (settles configFile request)
  | help => rfl
  | version => rfl
  | wrongUsage => rfl

theorem Invocation.ofArguments_dry {arguments dryArguments : List String}
    (read : Given.nothing.readAll none dryArguments =
      (Given.nothing.readAll none arguments).map Given.dry) :
    ofArguments dryArguments = (ofArguments arguments).dry := by
  have settles := Given.reads_readAll Flag.spelled_dryRun .nothing none arguments
  unfold ofArguments
  rw [read]
  cases answer : Given.nothing.readAll none arguments with
  | ok given => exact given.invocation_dry
  | error invocation =>
      rw [answer] at settles
      cases settles with
      | settled settles => exact (dry_of_ne_run settles).symm

section Added

variable {arguments dryArguments : List String} {requested : Option String} {request : Request}
  (free : "--dry-run" ∉ arguments)

include free

private theorem AddsDryRun.readAll (adds : AddsDryRun arguments dryArguments) :
    Given.nothing.readAll none dryArguments =
      (Given.nothing.readAll none arguments).map Given.dry := by
  obtain ⟨⟨front, back, rfl, rfl⟩, accepted⟩ := adds
  rcases Given.readAll_insert free .nothing rfl none with refused | read
  · refine absurd ?_ accepted
    rw [Invocation.ofArguments, refused]
  · exact read

theorem AddsDryRun.verbose (adds : AddsDryRun arguments dryArguments) :
    Command.verbose dryArguments = Command.verbose arguments := by
  unfold Command.verbose
  rw [adds.readAll free]
  cases Given.nothing.readAll none arguments with
  | error invocation => rfl
  | ok given => rfl

variable (valid : Invocation.ofArguments arguments = .run requested request)

include valid

private theorem addsDryRun_first : AddsDryRun arguments ("--dry-run" :: arguments) := by
  refine ⟨⟨[], arguments, rfl, rfl⟩, fun refused => ?_⟩
  have read := Given.readAll_dryRun .nothing rfl arguments
  rw [Given.readAll_dry free] at read
  rw [Invocation.ofArguments_dry read, valid] at refused
  cases refused

theorem AddsDryRun.runs (adds : AddsDryRun arguments dryArguments) :
    Invocation.ofArguments dryArguments = .run requested request.dry := by
  rw [Invocation.ofArguments_dry (adds.readAll free), valid]
  rfl

end Added

/-! ### Up to the plan -/

section Planned

variable {m : Type → Type} [Monad m]

def planned (disk : Disk m) (userDirectory requested : Option String) (trigger : Trigger)
    (branch : String) (note : Notice → m Unit) :
    m (Except String (Workflow × TextStore m × Plan)) := do
  let configFile ← Configuration.findFile disk userDirectory requested
  match ← (Configuration.load disk configFile note).run with
  | .error error => return .error (loadFailure configFile error)
  | .ok configuration =>
      (Workflow.setupLog configuration).forM note
      match Workflow.create configuration with
      | .error error => return .error error.report
      | .ok workflow =>
          let store := disk.store (rootDirectory configFile) note
          match ← (workflow.plan store trigger branch note).run with
          | .error error => return .error error.report
          | .ok plan => return .ok (workflow, store, plan)

def carryOut (dryRun : Bool) (note : Notice → m Unit) :
    Except String (Workflow × TextStore m × Plan) → m Response
  | .error reason => return .failure "" reason
  | .ok (workflow, store, plan) => do
      let summary := Report.plan plan dryRun
      if dryRun then
        return .success (summary ++ Report.status "Dry run: no files were written")
      else if plan.unchanged then
        return .success (summary ++ Report.status s!"Version {plan.next} unchanged")
      else
        match ← (workflow.apply store plan note).run with
        | .error error => return .failure summary error.report
        | .ok paths => return .success (summary ++ writtenReport paths plan.next)

private theorem runConfigured_bump [LawfulMonad m] (disk : Disk m)
    (userDirectory requested : Option String) (trigger : Trigger) (branch : String)
    (dryRun : Bool) (note : Notice → m Unit) :
    runConfigured disk userDirectory requested (.bump trigger branch dryRun) note =
      planned disk userDirectory requested trigger branch note >>= carryOut dryRun note := by
  unfold runConfigured planned
  rw [bind_assoc]
  refine bind_congr fun configFile => ?_
  rw [bind_assoc]
  refine bind_congr fun answer => ?_
  cases answer with
  | error error => rw [pure_bind]; rfl
  | ok configuration =>
      rw [bind_assoc]
      refine bind_congr fun _ => ?_
      cases Workflow.create configuration with
      | error error => rw [pure_bind]; rfl
      | ok workflow =>
          rw [bind_assoc]
          refine bind_congr fun answer => ?_
          cases answer with
          | error error => rw [pure_bind]; rfl
          | ok plan => rw [pure_bind]; rfl

end Planned

/-- A dry run that fails is the same as the other run, down to what is logged. -/
private theorem logged_dry {arguments dryArguments : List String} {requested : Option String}
    {trigger : Trigger} {branch : String}
    (valid : Invocation.ofArguments arguments = .run requested (.bump trigger branch false))
    (dryValid : Invocation.ofArguments dryArguments = .run requested (.bump trigger branch true))
    (tree : Tree) (userDirectory : Option String) :
    logged tree userDirectory dryArguments = logged tree userDirectory arguments ∨
      (logged tree userDirectory dryArguments).1.code = 0 := by
  simp only [logged, run, valid, dryValid, runConfigured_bump, StateT.run_bind]
  rcases StateT.run (StateT.run (planned Tree.disk.recorded userDirectory requested trigger branch
    record) []) tree with ⟨⟨answer, log⟩, later⟩
  cases answer with
  | error reason => exact .inl rfl
  | ok result => exact .inr rfl

/-! ### Failures before a plan -/

private theorem Prepares.of_create {tree : Tree} {file : Option String}
    {configuration : Configuration}
    {workflow : Workflow} (loaded : tree.configuration file = .ok configuration)
    (created : Workflow.create configuration = .ok workflow) : Prepares tree file workflow := by
  rw [create_eq_bind] at created
  obtain ⟨scheme, compiled, rest⟩ := bind_eq_ok.mp created
  obtain ⟨_, rules, result⟩ := bind_eq_ok.mp rest
  cases result
  exact ⟨loaded, compiled, rules⟩

private theorem dry_fails_or_plans (tree : Tree) (userDirectory requested : Option String)
    (trigger : Trigger) (branch : String) :
    (∃ reason, StateT.run (runConfigured Tree.disk userDirectory requested
      (.bump trigger branch true)) tree = (.failure "" reason, tree)) ∨
    ∃ workflow plan, Plans tree (tree.configFile userDirectory requested) trigger branch
      workflow plan := by
  cases loaded : tree.configuration (tree.configFile userDirectory requested) with
  | error error => exact .inl ⟨_, run_of_configuration_error _ loaded⟩
  | ok configuration =>
      cases created : Workflow.create configuration with
      | error error =>
          refine .inl ⟨error.report, ?_⟩
          rw [run_of_configuration _ loaded, created]
          rfl
      | ok workflow =>
          have prepares := Prepares.of_create loaded created
          cases planned : workflow.plannedIn (Tree.textFiles (rootDirectory
              (tree.configFile userDirectory requested))) tree trigger branch with
          | error error =>
              refine .inl ⟨error.report, ?_⟩
              rw [run_of_prepares _ prepares]
              exact run_runBump_error true (attempt_plan planned)
          | ok plan => exact .inr ⟨workflow, plan, prepares, planned⟩

section Plan

variable {tree : Tree} {userDirectory requested : Option String} {trigger : Trigger}
  {branch : String} {workflow : Workflow} {plan : Plan}
  (plans : Plans tree (tree.configFile userDirectory requested) trigger branch workflow plan)

include plans

private theorem run_dry_of_plans :
    StateT.run (runConfigured Tree.disk userDirectory requested (.bump trigger branch true)) tree =
      (.success (printed (["", "Proposed Version Change (dry run):"] ++
        Report.changeLines plan.current.literal plan.next plan.applied ++
        ["→ Dry run: no files were written"])), tree) := by
  rw [run_of_prepares _ plans.toPrepares, printed_append]
  refine (run_runBump_dry (attempt_plan plans.planned)).trans ?_
  rw [Report.plan_eq_printed, Report.status_eq_printed]
  rfl

/-- Whatever comes of a plan, it is shown first. -/
private theorem exists_output_of_plans :
    ∃ rest, (StateT.run (runConfigured Tree.disk userDirectory requested
      (.bump trigger branch false)) tree).1.output = printed (planLines plan) ++ rest := by
  have shown : Report.plan plan false = printed (planLines plan) :=
    Report.plan_eq_printed plan false
  rw [run_of_prepares _ plans.toPrepares, runRequest, ← shown]
  cases unchanged : plan.unchanged with
  | true =>
      rw [run_runBump_unchanged (attempt_plan plans.planned) unchanged]
      exact ⟨_, rfl⟩
  | false =>
      rw [run_runBump (attempt_plan plans.planned) unchanged]
      split
      next => exact ⟨"", (String.append_empty).symm⟩
      next => exact ⟨_, rfl⟩

end Plan

end Command

/-! ### What the version file becomes -/

namespace Tree

variable {before after tree : Tree} {file : Option String} {base names : List String}
  {path text : String}

private theorem SameShape.startsAt (same : SameShape before after)
    (starts : before.StartsAt file base) :
    after.StartsAt file base := by
  cases starts with
  | workingDirectory =>
      rw [← same.workingDirectory]
      exact .workingDirectory
  | beside placed => exact .beside ((same.place _).trans placed)

private theorem SameShape.leadsTo_iff (same : SameShape before after) :
    after.LeadsTo base path names ↔ before.LeadsTo base path names := by
  unfold LeadsTo placeFrom
  rw [same.follow]

private theorem LeadsTo.unique {others : List String} (leads : tree.LeadsTo base path names)
    (also : tree.LeadsTo base path others) : names = others := by
  obtain ⟨parent, name, placed, rfl⟩ := leads
  obtain ⟨other, otherName, again, rfl⟩ := also
  cases placed.symm.trans again
  rfl

private theorem textAt_of_node? {access : Access}
    (stored : tree.node? names = some (.file text.toUTF8 access)) :
    Command.textAt tree names = some text := by
  unfold Command.textAt
  rw [stored]
  exact fromUTF8?_eq_some_iff.mpr rfl

private theorem textAt_congr (same : after.node? names = before.node? names) :
    Command.textAt after names = Command.textAt before names := by
  unfold Command.textAt
  rw [same]

/-- A text that is read is the one that the path leads to. -/
private theorem exists_leadsTo_of_read (starts : tree.StartsAt file base)
    (read : (textFiles (Command.rootDirectory file)).read tree path = .ok text) :
    ∃ names, tree.LeadsTo base path names ∧ Command.textAt tree names = some text := by
  obtain ⟨parent, name, _, placed, found, _⟩ := read_eq_ok (readText_eq_ok_iff.mp read)
  exact ⟨parent ++ [name], ⟨parent, name, placeFrom_of_resolve starts placed, rfl⟩,
    textAt_of_node? (node?_of_child? found)⟩

end Tree

namespace Workflow

variable {workflow : Workflow} {next : String} {file : Option String} {before after : Tree}
  {target : Target} {base names : List String} {text : String} {located : Located}

private theorem Updates.textAt (starts : before.StartsAt file base)
    (updates : workflow.Updates (Tree.textFiles (Command.rootDirectory file)) next before target
      after)
    (read : (Tree.textFiles (Command.rootDirectory file)).read before target.path = .ok text)
    (locates : workflow.locate (target.select text) = .ok located)
    (leads : before.LeadsTo base target.path names) :
    Command.textAt after names = some (target.replace text (located.splice next)) := by
  obtain ⟨again, same, written⟩ := updates
  cases read.symm.trans again
  cases locates.symm.trans same
  obtain ⟨parent, name, _, placed, _, _, nodes⟩ :=
    Tree.write_of_read (Tree.readText_eq_ok_iff.mp read) (Tree.write_of_writeText written)
  have here := leads.unique ⟨parent, name, Tree.placeFrom_of_resolve starts placed, rfl⟩
  apply Tree.textAt_of_node?
  rw [nodes, if_pos here]

/-- The first target keeps what its update made of it if no later target leads to its file. -/
private theorem UpdatesAll.textAt_first {others : List Target} (starts : before.StartsAt file base)
    (all : workflow.UpdatesAll (Tree.textFiles (Command.rootDirectory file)) next before
      (target :: others) after)
    (read : (Tree.textFiles (Command.rootDirectory file)).read before target.path = .ok text)
    (locates : workflow.locate (target.select text) = .ok located)
    (leads : before.LeadsTo base target.path names)
    (alone : ∀ other ∈ others, ¬ before.LeadsTo base other.path names) :
    Command.textAt after names = some (target.replace text (located.splice next)) := by
  cases all with
  | next first later =>
      obtain ⟨_, _, _, shape, _⟩ := first.inTree
      obtain ⟨_, changes⟩ := later.inTree (shape.startsAt starts)
      rw [← first.textAt starts read locates leads]
      refine Tree.textAt_congr (by_contra fun different => ?_)
      obtain ⟨other, member, led⟩ := changes names different
      exact alone other member (shape.leadsTo_iff.mp led)

end Workflow

namespace Command

/-- The version that a plan starts from, where it stands in the version file. The path of the
version file leads to `names`, and its text is cut at the line that is selected and at the
version that is found on it. -/
structure ShowsVersion (tree : Tree) (file : Option String) (workflow : Workflow) (plan : Plan)
    (base names : List String) (text : String) : Prop where
  starts : tree.StartsAt file base
  leads : tree.LeadsTo base workflow.configuration.versionFile.path names
  stored : textAt tree names = some text
  located : workflow.locate (workflow.configuration.versionFile.select text) = .ok plan.current
  cut : text = workflow.configuration.versionFile.above text ++
    (plan.current.before ++ plan.current.literal ++ plan.current.after) ++
      workflow.configuration.versionFile.below text

theorem Plans.exists_shows {tree : Tree} {file : Option String} {trigger : Trigger}
    {branch : String} {workflow : Workflow} {plan : Plan}
    (plans : Plans tree file trigger branch workflow plan) :
    ∃ base names text, ShowsVersion tree file workflow plan base names text ∧
      (Tree.textFiles (rootDirectory file)).read tree workflow.configuration.versionFile.path =
        .ok text := by
  obtain ⟨base, starts⟩ := Tree.exists_startsAt plans.loaded
  obtain ⟨located, current, planned⟩ := bind_eq_ok.mp plans.planned
  obtain ⟨text, read, locates⟩ := bind_eq_ok.mp current
  obtain ⟨names, leads, stored⟩ := Tree.exists_leadsTo_of_read starts read
  rw [← Workflow.current_of_planFrom planned] at locates
  refine ⟨base, names, text, ⟨starts, leads, stored, locates, ?_⟩, read⟩
  rw [Scheme.joined_of_locate locates, Target.joined_select]

/-- What stands between a run and the stream for errors: which lines of the log it shows,
given whether all were asked for, and how it sets one. The time that is put on a line is left
out. -/
structure Terminal where
  shows : Bool → Notice → Bool
  line : Notice → String

namespace Terminal

def errorStream (terminal : Terminal) (verbose : Bool) (log : List Notice)
    (response : Response) : String :=
  String.join ((log.filter (terminal.shows verbose)).map terminal.line) ++ response.errors

def IsUsual (terminal : Terminal) : Prop :=
  ∀ verbose notice, terminal.shows verbose notice = notice.level.shown verbose

/-- Lines for debugging are not seen unless they are asked for. -/
theorem IsUsual.errorStream_eq {terminal : Terminal} (usual : terminal.IsUsual)
    {log : List Notice} (debugs : ∀ notice ∈ log, notice.level = .debug) (response : Response) :
    terminal.errorStream false log response = response.errors := by
  have hidden : log.filter (terminal.shows false) = [] := by
    refine List.filter_eq_nil_iff.mpr fun notice member => ?_
    rw [usual, debugs notice member]
    exact Bool.false_ne_true
  rw [errorStream, hidden]
  exact String.empty_append

end Terminal

private theorem level_of_mem_logged_dry {arguments : List String} {requested : Option String}
    {trigger : Trigger} {branch : String}
    (dryValid : Invocation.ofArguments arguments = .run requested (.bump trigger branch true))
    (tree : Tree) (userDirectory : Option String) {notice : Notice}
    (member : notice ∈ (logged tree userDirectory arguments).2.1) : notice.level = .debug := by
  refine level_of_mem_logged tree userDirectory ?_ member
  intro _ _ _ writes
  cases dryValid.symm.trans writes

/-- A dry run previews the run without its flag. The flag can always be added in front.
Wherever it is added so that it is read, a dry run that fails leaves the files as they are, and
so does the other run, which fails with the same exit code, prints nothing, and writes the same
to the stream for errors: the same lines of the log as far as they are shown, which are none
unless they are asked for, and the same reason. A dry run that succeeds shows the change of a
plan, the other run shows the same lines under another heading, and what is shown as the old
version stands in the version file. If the other run then succeeds, the versions differ and no
other file of the configuration is the version file, the new version stands there in place of
the old one, and the rest of that file is as it was. -/
theorem dry_run_previews {arguments : List String} {requested : Option String}
    {request : Request} (valid : Invocation.ofArguments arguments = .run requested request)
    (notCurrent : "--current" ∉ arguments) (notDry : "--dry-run" ∉ arguments)
    (tree : Tree) (userDirectory : Option String) :
    AddsDryRun arguments ("--dry-run" :: arguments) ∧
    ∀ dryArguments, AddsDryRun arguments dryArguments →
      ∃ preview dryLog response log later,
        logged tree userDirectory dryArguments = (preview, dryLog, tree) ∧
        logged tree userDirectory arguments = (response, log, later) ∧
        (preview.code ≠ 0 →
          response.code = preview.code ∧ response.output = "" ∧ later = tree ∧
            ∃ reason, response.errors = "ERROR: " ++ reason ++ "\n" ∧
              ∀ terminal : Terminal,
                terminal.errorStream (verbose arguments) log response =
                  terminal.errorStream (verbose dryArguments) dryLog preview ∧
                (terminal.IsUsual → verbose arguments = false →
                  terminal.errorStream (verbose arguments) log response =
                    "ERROR: " ++ reason ++ "\n")) ∧
        (preview.code = 0 →
          ∃ trigger branch workflow plan shown rest base names text,
            request = .bump trigger branch false ∧
            Plans tree (tree.configFile userDirectory requested) trigger branch workflow plan ∧
            shown = ["  From: " ++ plan.current.literal, "  To:   " ++ plan.next] ++
              Report.ruleLines plan.applied ∧
            preview.output = printed (["", "Proposed Version Change (dry run):"] ++ shown ++
              ["→ Dry run: no files were written"]) ∧
            response.output = printed (["", "Version Change:"] ++ shown) ++ rest ∧
            ShowsVersion tree (tree.configFile userDirectory requested) workflow plan base names
              text ∧
            (response.code = 0 → plan.current.literal ≠ plan.next →
              (∀ extra ∈ workflow.configuration.files, ¬ tree.LeadsTo base extra.path names) →
              textAt later names = some (workflow.configuration.versionFile.above text ++
                (plan.current.before ++ plan.next ++ plan.current.after) ++
                  workflow.configuration.versionFile.below text))) := by
  refine ⟨addsDryRun_first notDry valid, fun dryArguments adds => ?_⟩
  have dryValid := adds.runs notDry valid
  rcases request_of_ofArguments valid with ⟨_, asked⟩ | ⟨trigger, branch, _, rfl⟩
  · exact absurd asked notCurrent
  rw [List.contains_eq_mem, decide_eq_false notDry] at valid ⊢
  rcases ends : onTree tree userDirectory arguments with ⟨response, later⟩
  have real := (onTree_of_run valid).symm.trans ends
  obtain ⟨log, heard⟩ := exists_logged tree userDirectory arguments
  obtain ⟨dryLog, dryHeard⟩ := exists_logged tree userDirectory dryArguments
  rw [ends] at heard
  rcases dry_fails_or_plans tree userDirectory requested trigger branch with
    ⟨reason, fails⟩ | ⟨workflow, plan, plans⟩
  -- A dry run that fails does not get to where the two runs part.
  · have dryEnds := (onTree_of_run dryValid).trans fails
    rw [dryEnds] at dryHeard
    have same := (logged_dry valid dryValid tree userDirectory).resolve_right fun succeeded => by
      rw [dryHeard] at succeeded
      cases succeeded
    have debugs : ∀ notice ∈ dryLog, notice.level = .debug := by
      intro notice member
      refine level_of_mem_logged_dry dryValid tree userDirectory ?_
      rw [dryHeard]
      exact member
    cases heard.symm.trans (same.symm.trans dryHeard)
    refine ⟨_, _, _, _, _, dryHeard, heard, fun _ => ⟨rfl, rfl, rfl, reason, rfl,
      fun terminal => ⟨?_, fun usual short => ?_⟩⟩, fun impossible => ?_⟩
    · rw [adds.verbose notDry]
      rfl
    · rw [short]
      exact usual.errorStream_eq debugs _
    · cases impossible
  -- Both have the same plan then, and the version file is written first.
  · have dryEnds := (onTree_of_run dryValid).trans (run_dry_of_plans plans)
    rw [dryEnds] at dryHeard
    obtain ⟨rest, output⟩ := exists_output_of_plans plans
    rw [real] at output
    obtain ⟨base, names, text, shows, read⟩ := plans.exists_shows
    refine ⟨_, dryLog, response, log, later, dryHeard, heard, fun failed => absurd rfl failed,
      fun _ => ⟨trigger, branch, workflow, plan, _, rest, base, names, text, rfl, plans, rfl,
        rfl, output, shows, fun succeeded changed alone => ?_⟩⟩
    have kept : plan.unchanged = false := beq_eq_false_iff_ne.mpr changed
    rcases onTree_of_plans valid rfl plans kept ends with
      ⟨all, _⟩ | ⟨_, _, _, _, _, _, _, _, failed, _⟩
    · rw [all.textAt_first shows.starts read shows.located shows.leads alone,
        Target.replace_eq_joined]
      rfl
    · rw [failed] at succeeded
      cases succeeded

def logTree : Tree :=
  { nodes :=
      [ (["w"], .directory),
        (["w", "docs"], .directory),
        (["w", "docs", "log"], .file "é 9.9\r\nnow 1.4-rc, 1.3\nend".toUTF8),
        (["w", "lock"], .file "1.4".toUTF8),
        (["w", "bumper.toml"], .file
          ("version_file = \x7bpath = 'docs/log', line = 2\x7d\n" ++
            "files = [\x7bpath = 'lock'\x7d]\n" ++
            "rules = [\x7btrigger = 'commit', bump = 'minor', suffix = '-rc'\x7d]").toUTF8) ]
    workingDirectory := ["w"] }

def logArguments : List String :=
  ["-t", "commit", "-bmain"]

def dryLogArguments : List String :=
  ["-t", "commit", "--dry-run", "-bmain"]

theorem dry_run_previews_line :
    AddsDryRun logArguments dryLogArguments ∧
      (∃ shown rest,
        (logged logTree none dryLogArguments).1.output =
            printed (["", "Proposed Version Change (dry run):"] ++ shown ++
              ["→ Dry run: no files were written"]) ∧
          (logged logTree none logArguments).1.output =
            printed (["", "Version Change:"] ++ shown) ++ rest) ∧
      (logged logTree none dryLogArguments).1 =
        { code := 0
          output := "\nProposed Version Change (dry run):\n  From: 1.4-rc\n  To:   1.5-rc\n" ++
            "  rule commit on *\n→ Dry run: no files were written\n"
          errors := "" } ∧
      (logged logTree none logArguments).1 =
        { code := 0
          output := "\nVersion Change:\n  From: 1.4-rc\n  To:   1.5-rc\n" ++
            "  rule commit on *\n✓ Updated docs/log\n✓ Updated lock\n" ++
            "✓ Bumped version to 1.5-rc\n"
          errors := "" } ∧
      textAt (logged logTree none logArguments).2.2 ["w", "docs", "log"] =
        some "é 9.9\r\nnow 1.5-rc, 1.3\nend" := by
  have valid : Invocation.ofArguments logArguments =
      .run none (.bump .commit "main" false) := by
    decide +kernel
  have adds : AddsDryRun logArguments dryLogArguments :=
    { added := ⟨["-t", "commit"], ["-bmain"], rfl, rfl⟩
      accepted := by decide +kernel }
  have shows : (logged logTree none dryLogArguments).1 =
      { code := 0
        output := "\nProposed Version Change (dry run):\n  From: 1.4-rc\n  To:   1.5-rc\n" ++
          "  rule commit on *\n→ Dry run: no files were written\n"
        errors := "" } := by
    decide +kernel
  refine ⟨adds, ?_, shows, by decide +kernel, by decide +kernel⟩
  obtain ⟨_, previews⟩ := dry_run_previews valid (by decide) (by decide) logTree none
  obtain ⟨preview, dryLog, response, log, later, dryEnds, ends, _, succeeds⟩ := previews _ adds
  rw [dryEnds] at shows ⊢
  rw [ends]
  obtain ⟨_, _, _, _, shown, rest, _, _, _, _, _, _, dryOutput, output, _⟩ :=
    succeeds (congrArg Response.code shows)
  exact ⟨shown, rest, dryOutput, output⟩

end Command

end Versioning
