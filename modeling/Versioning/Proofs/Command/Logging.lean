import Versioning.Proofs.Command.Stages

/-!
Runs whose log is kept.

A listener that keeps what it is told changes nothing else: the run does what it does when
nobody listens. Up to the plan only lines for debugging are told, so a run that ends there
shows none of them unless it is asked to.
-/

namespace Versioning

def record {m : Type → Type} [Monad m] (notice : Notice) : StateT (List Notice) m Unit :=
  modify (· ++ [notice])

def Disk.recorded {m : Type → Type} [Monad m] (disk : Disk m) :
    Disk (StateT (List Notice) m) where
  pathExists path := liftM (disk.pathExists path)
  read path := liftM (disk.read path)
  write path content := liftM (disk.write path content)

/-! ### What is told -/

section Tells

variable {σ α β : Type}

/-- An action that is recorded does what it does when nobody listens, and all that it adds to
the log is of a given kind. -/
def Tells (told : Notice → Prop) (noisy : StateT (List Notice) (StateM σ) α)
    (quiet : StateM σ α) : Prop :=
  ∀ log state, ∃ notices, (∀ notice ∈ notices, told notice) ∧
    StateT.run (StateT.run noisy log) state =
      (((StateT.run quiet state).1, log ++ notices), (StateT.run quiet state).2)

variable {told : Notice → Prop} {noisy : StateT (List Notice) (StateM σ) α} {quiet : StateM σ α}

namespace Tells

private theorem pure (value : α) :
    Tells told (Pure.pure value : StateT (List Notice) (StateM σ) α) (Pure.pure value) := by
  intro log state
  refine ⟨[], fun _ none => absurd none List.not_mem_nil, ?_⟩
  rw [List.append_nil]
  rfl

private theorem lift (quiet : StateM σ α) : Tells told (liftM quiet) quiet := by
  intro log state
  refine ⟨[], fun _ none => absurd none List.not_mem_nil, ?_⟩
  rw [List.append_nil]
  rfl

private theorem note {notice : Notice} (here : told notice) :
    Tells told (record notice : StateT (List Notice) (StateM σ) Unit) (silent notice) :=
  fun _ _ => ⟨[notice], List.forall_mem_singleton.mpr here, rfl⟩

private theorem bind (first : Tells told noisy quiet) {noisyNext : α → StateT (List Notice) (StateM σ) β}
    {quietNext : α → StateM σ β} (next : ∀ value, Tells told (noisyNext value) (quietNext value)) :
    Tells told (noisy >>= noisyNext) (quiet >>= quietNext) := by
  intro log state
  obtain ⟨notices, here, done⟩ := first log state
  obtain ⟨others, later, rest⟩ :=
    next (StateT.run quiet state).1 (log ++ notices) (StateT.run quiet state).2
  refine ⟨notices ++ others, List.forall_mem_append.mpr ⟨here, later⟩, ?_⟩
  rw [StateT.run_bind, run_bind _ done, rest, List.append_assoc, StateT.run_bind]
  rfl

private theorem forM {notices : List Notice} (all : ∀ notice ∈ notices, told notice) :
    Tells told (notices.forM record : StateT (List Notice) (StateM σ) PUnit)
      (notices.forM silent) := by
  induction notices with
  | nil => exact pure _
  | cons notice notices ih =>
      obtain ⟨here, later⟩ := List.forall_mem_cons.mp all
      exact (note here).bind fun _ => ih later

end Tells

/-- The same for an action that may fail. -/
def Tries (told : Notice → Prop) (noisy : ExceptT Error (StateT (List Notice) (StateM σ)) α)
    (quiet : ExceptT Error (StateM σ) α) : Prop :=
  Tells told (ExceptT.run noisy) (ExceptT.run quiet)

namespace Tries

private theorem answer (value : Except Error α) :
    Tries told (ExceptT.mk (Pure.pure value) : ExceptT Error (StateT (List Notice) (StateM σ)) α)
      (ExceptT.mk (Pure.pure value)) :=
  Tells.pure value

private theorem lift (tells : Tells told noisy quiet) :
    Tries told (liftM noisy : ExceptT Error (StateT (List Notice) (StateM σ)) α)
      (liftM quiet) := by
  change Tells told (noisy >>= fun value => Pure.pure (Except.ok value))
    (quiet >>= fun value => Pure.pure (Except.ok value))
  exact tells.bind fun value => Tells.pure (Except.ok value)

variable {noisy : ExceptT Error (StateT (List Notice) (StateM σ)) α}
  {quiet : ExceptT Error (StateM σ) α}

private theorem bind (first : Tries told noisy quiet)
    {noisyNext : α → ExceptT Error (StateT (List Notice) (StateM σ)) β}
    {quietNext : α → ExceptT Error (StateM σ) β}
    (next : ∀ value, Tries told (noisyNext value) (quietNext value)) :
    Tries told (noisy >>= noisyNext) (quiet >>= quietNext) := by
  change Tells told (ExceptT.run noisy >>= ExceptT.bindCont noisyNext)
    (ExceptT.run quiet >>= ExceptT.bindCont quietNext)
  refine Tells.bind first fun answer => ?_
  cases answer with
  | ok value => exact next value
  | error error => exact Tells.pure (Except.error error)

private theorem tryCatch (first : Tries told noisy quiet)
    {noisyHandle : Error → ExceptT Error (StateT (List Notice) (StateM σ)) α}
    {quietHandle : Error → ExceptT Error (StateM σ) α}
    (handle : ∀ error, Tries told (noisyHandle error) (quietHandle error)) :
    Tries told (MonadExcept.tryCatch noisy noisyHandle)
      (MonadExcept.tryCatch quiet quietHandle) := by
  simp only [Tries, MonadExcept.tryCatch, tryCatchThe, MonadExceptOf.tryCatch, ExceptT.tryCatch,
    ExceptT.run_mk]
  refine Tells.bind first fun answer => ?_
  cases answer with
  | ok value => exact Tells.pure (Except.ok value)
  | error error => exact handle error

end Tries

end Tells

/-! ### Stores -/

structure TextStore.Tells {σ : Type} (told : Notice → Prop)
    (noisy : TextStore (StateT (List Notice) (StateM σ))) (quiet : TextStore (StateM σ)) :
    Prop where
  read : ∀ path, Tries told (noisy.read path) (quiet.read path)
  write : (∀ notice, told notice) → ∀ path text,
    Tries told (noisy.write path text) (quiet.write path text)

section Stores

variable {σ : Type} {told : Notice → Prop}

private theorem Disk.tries_readText (disk : Disk (StateM σ)) (path : String) :
    Tries told (disk.recorded.readText path) (disk.readText path) := by
  refine (Tries.lift (Tells.lift (disk.read path))).bind fun content => ?_
  cases content with
  | error fault => exact .answer _
  | ok bytes =>
      simp only
      cases String.fromUTF8? bytes with
      | none => exact .answer _
      | some text => exact .answer _

private theorem Disk.tells_store (disk : Disk (StateM σ)) (root : Option String) :
    (disk.recorded.store root record).Tells told (disk.store root) where
  read path := disk.tries_readText (resolve root path)
  write all path text := by
    refine (Tries.lift (Tells.note (all _))).bind fun _ => ?_
    refine (Tries.lift (Tells.lift (disk.write _ text.toUTF8))).bind fun content => ?_
    cases content with
    | error fault => exact .answer _
    | ok _ => exact .answer _

variable {noisy : TextStore (StateT (List Notice) (StateM σ))} {quiet : TextStore (StateM σ)}

private theorem TextStore.Tells.readTarget (tells : noisy.Tells told quiet) (target : Target) :
    Tries told (noisy.readTarget target) (quiet.readTarget target) := by
  refine (tells.read target.path).bind fun text => ?_
  cases target.line with
  | none => exact .answer _
  | some number => exact .answer _

private theorem TextStore.Tells.writeTarget (tells : noisy.Tells told quiet)
    (all : ∀ notice, told notice) (target : Target) (text : String) :
    Tries told (noisy.writeTarget target text) (quiet.writeTarget target text) := by
  unfold TextStore.writeTarget
  cases target.line with
  | none => exact tells.write all target.path text
  | some number => exact (tells.read target.path).bind fun whole => tells.write all _ _

end Stores

/-! ### Workflows -/

namespace Workflow

variable {σ : Type} {told : Notice → Prop} {noisy : TextStore (StateT (List Notice) (StateM σ))}
  {quiet : TextStore (StateM σ)}

theorem level_of_mem_setupLog {configuration : Configuration} {notice : Notice}
    (member : notice ∈ setupLog configuration) : notice.level = .debug := by
  unfold setupLog at member
  split at member
  next => cases member
  next =>
    split at member
    next => cases member
    next =>
      cases List.mem_singleton.mp member
      rfl

theorem level_of_mem_planLog {workflow : Workflow} {located : Located} {trigger : Trigger}
    {branch : String} {notice : Notice}
    (member : notice ∈ workflow.planLog located trigger branch) : notice.level = .debug := by
  have unmatched : ∀ applied : List Rule,
      notice ∈ (if applied.isEmpty then [Notice.noRule trigger branch] else []) →
        notice.level = .debug := by
    intro applied here
    split at here
    next =>
      cases List.mem_singleton.mp here
      rfl
    next => cases here
  unfold planLog at member
  split at member
  next => cases member
  next =>
    simp only at member
    split at member
    next => exact unmatched _ member
    next =>
      rcases List.mem_append.mp member with here | later
      · exact unmatched _ here
      · simp only [List.mem_cons, List.not_mem_nil, or_false] at later
        rcases later with rfl | rfl
        · rfl
        · rfl

section Plans

variable (debugs : ∀ notice : Notice, notice.level = .debug → told notice)
  (tells : noisy.Tells told quiet) (workflow : Workflow)

include debugs tells

private theorem tries_locateIn (target : Target) :
    Tries told (workflow.locateIn noisy target record) (workflow.locateIn quiet target) := by
  refine (tells.readTarget target).bind fun text => ?_
  refine (Tries.answer (workflow.locate text)).bind fun located => ?_
  refine (Tries.lift (Tells.note (debugs _ rfl))).bind fun _ => ?_
  exact .answer (.ok located)

private theorem tries_current :
    Tries told (workflow.current noisy record) (workflow.current quiet) :=
  tries_locateIn debugs tells workflow workflow.configuration.versionFile

private theorem tries_plan (trigger : Trigger) (branch : String) :
    Tries told (workflow.plan noisy trigger branch record)
      (workflow.plan quiet trigger branch) := by
  refine (tries_current debugs tells workflow).bind fun located => ?_
  have logged : ∀ notice ∈ workflow.planLog located trigger branch, told notice :=
    fun notice member => debugs notice (level_of_mem_planLog member)
  exact (Tries.lift (Tells.forM logged)).bind fun _ => .answer _

end Plans

section Updates

variable (all : ∀ notice : Notice, told notice) (tells : noisy.Tells told quiet)
  (workflow : Workflow) (next : String)

include all tells

private theorem tries_update (target : Target) :
    Tries told (workflow.update noisy next target record) (workflow.update quiet next target) := by
  have found := tries_locateIn (fun notice _ => all notice) tells workflow target
  refine (found.tryCatch fun error => ?_).bind fun located => ?_
  · exact (Tries.lift (Tells.note (all _))).bind fun _ => .answer (.error error)
  · exact (tells.writeTarget all target _).bind fun _ => Tries.lift (Tells.note (all _))

private theorem tries_updateAll (targets : List Target) :
    Tries told (workflow.updateAll noisy next targets record)
      (workflow.updateAll quiet next targets) := by
  induction targets with
  | nil => exact .answer (.ok [])
  | cons target targets ih =>
      refine (tries_update all tells workflow next target).bind fun _ => ?_
      exact ih.bind fun paths => .answer (.ok (target.path :: paths))

end Updates

end Workflow

/-! ### Runs -/

section Runs

variable {σ : Type} {told : Notice → Prop}

private theorem Configuration.tells_findFile (disk : Disk (StateM σ))
    (userDirectory requested : Option String) :
    Tells told (findFile disk.recorded userDirectory requested)
      (findFile disk userDirectory requested) := by
  cases requested with
  | some path => exact .pure _
  | none =>
      refine (Tells.lift (disk.pathExists localFile)).bind fun here => ?_
      cases here with
      | true => exact .pure _
      | false =>
          simp only [Bool.false_eq_true, if_false]
          cases userDirectory.map userFile with
          | none => exact .pure _
          | some path =>
              refine (Tells.lift (disk.pathExists path)).bind fun there => ?_
              cases there with
              | true => exact .pure _
              | false => exact .pure _

namespace Command

variable (debugs : ∀ notice : Notice, notice.level = .debug → told notice)

include debugs

private theorem tries_load (disk : Disk (StateM σ)) (file : Option String) :
    Tries told (Configuration.load disk.recorded file record) (Configuration.load disk file) := by
  cases file with
  | none => exact .answer (.ok Configuration.default)
  | some path =>
      refine (Tries.lift (Tells.note (debugs _ rfl))).bind fun _ => ?_
      exact (disk.tries_readText path).bind fun document => .answer _

section Requests

variable {noisy : TextStore (StateT (List Notice) (StateM σ))} {quiet : TextStore (StateM σ)}
  (tells : noisy.Tells told quiet) (workflow : Workflow)

include tells

private theorem tells_runCurrent :
    Tells told (runCurrent workflow noisy record) (runCurrent workflow quiet) := by
  refine Tells.bind (Workflow.tries_current debugs tells workflow) fun answer => ?_
  cases answer with
  | error error => exact .pure _
  | ok located => exact .pure _

private theorem tells_runBump (trigger : Trigger) (branch : String) (dryRun : Bool)
    (writes : dryRun = false → ∀ notice, told notice) :
    Tells told (runBump workflow noisy trigger branch dryRun record)
      (runBump workflow quiet trigger branch dryRun) := by
  refine Tells.bind (Workflow.tries_plan debugs tells workflow trigger branch) fun answer => ?_
  cases answer with
  | error error => exact .pure _
  | ok plan =>
      cases dryRun with
      | true => exact .pure _
      | false =>
          simp only [Bool.false_eq_true, if_false]
          split
          next => exact .pure _
          next =>
            refine Tells.bind (Workflow.tries_updateAll (writes rfl) tells workflow plan.next
              workflow.configuration.targets) fun answer => ?_
            cases answer with
            | error error => exact .pure _
            | ok paths => exact .pure _

end Requests

/-- Only a run that may write tells more than lines for debugging. -/
theorem tells_run (disk : Disk (StateM σ)) (userDirectory : Option String)
    (arguments : List String)
    (writes : ∀ requested trigger branch, Invocation.ofArguments arguments =
      .run requested (.bump trigger branch false) → ∀ notice, told notice) :
    Tells told (run disk.recorded userDirectory arguments record)
      (run disk userDirectory arguments) := by
  unfold run
  cases invocation : Invocation.ofArguments arguments with
  | help => exact .pure _
  | version => exact .pure _
  | wrongUsage => exact .pure _
  | run requested request =>
      refine (Configuration.tells_findFile disk userDirectory requested).bind fun file => ?_
      refine Tells.bind (tries_load debugs disk file) fun answer => ?_
      cases answer with
      | error error => exact .pure _
      | ok configuration =>
          have logged : ∀ notice ∈ Workflow.setupLog configuration, told notice :=
            fun notice member => debugs notice (Workflow.level_of_mem_setupLog member)
          refine (Tells.forM logged).bind fun _ => ?_
          cases Workflow.create configuration with
          | error error => exact .pure _
          | ok workflow =>
              have tells : (disk.recorded.store (rootDirectory file) record).Tells told
                  (disk.store (rootDirectory file)) :=
                disk.tells_store (rootDirectory file)
              cases request with
              | current => exact tells_runCurrent debugs tells workflow
              | bump trigger branch dryRun =>
                  -- Only what is done behind the plan may tell anything else.
                  refine tells_runBump debugs tells workflow trigger branch dryRun ?_
                  rintro rfl
                  exact writes requested trigger branch invocation

omit debugs

/-- How the command ends on a tree, what it has logged, and the tree that it leaves behind. -/
def logged (tree : Tree) (userDirectory : Option String) (arguments : List String) :
    Response × List Notice × Tree :=
  let ends := StateT.run (StateT.run (run Tree.disk.recorded userDirectory arguments record) []) tree
  (ends.1.1, ends.1.2, ends.2)

/-- A run whose log is kept ends as it does when nobody listens. -/
theorem exists_logged (tree : Tree) (userDirectory : Option String) (arguments : List String) :
    ∃ log, logged tree userDirectory arguments =
      ((onTree tree userDirectory arguments).1, log, (onTree tree userDirectory arguments).2) := by
  have tells : Tells (fun _ => True) (run Tree.disk.recorded userDirectory arguments record)
      (run Tree.disk userDirectory arguments) :=
    tells_run (fun _ _ => trivial) _ _ _ fun _ _ _ _ _ => trivial
  obtain ⟨notices, _, ends⟩ := tells [] tree
  refine ⟨notices, ?_⟩
  rw [logged, ends]
  rfl

theorem level_of_mem_logged (tree : Tree) (userDirectory : Option String)
    {arguments : List String}
    (reads : ∀ requested trigger branch, Invocation.ofArguments arguments ≠
      .run requested (.bump trigger branch false))
    {notice : Notice} (member : notice ∈ (logged tree userDirectory arguments).2.1) :
    notice.level = .debug := by
  have tells : Tells (fun notice => notice.level = .debug)
      (run Tree.disk.recorded userDirectory arguments record)
      (run Tree.disk userDirectory arguments) :=
    tells_run (fun _ same => same) _ _ _ fun requested trigger branch writes =>
      absurd writes (reads requested trigger branch)
  obtain ⟨notices, all, ends⟩ := tells [] tree
  rw [logged, ends] at member
  exact all notice member

end Command

end Runs

end Versioning
