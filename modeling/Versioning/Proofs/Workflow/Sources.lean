import Mathlib.Data.List.Forall2
import Versioning.Proofs.Store.Mirror
import Versioning.Proofs.Workflow.Steps

/-!
One workflow over two kinds of files.

A workflow writes a file only after it has read it. So it cannot tell two kinds of files
apart that hold the same texts and let a text that was read be replaced: step by step it
gives the same answers over both, and both hold the same texts afterwards.
-/

namespace Versioning

/-! ### Actions that look alike -/

/-- Both actions answer the same, but for what an error says, and leave related states. -/
structure Alike {σ τ α : Type} (related : σ → τ → Prop) (left : Except Error α × σ)
    (right : Except Error α × τ) : Prop where
  answers : byKind left.1 = byKind right.1
  states : related left.2 right.2

section Alike

variable {σ τ α β : Type} {related : σ → τ → Prop} {state : σ} {other : τ}

theorem Alike.bind {first : ExceptT Error (StateM σ) α} {otherFirst : ExceptT Error (StateM τ) α}
    {next : α → ExceptT Error (StateM σ) β} {otherNext : α → ExceptT Error (StateM τ) β}
    (alike : Alike related (attempt first state) (attempt otherFirst other))
    (later : ∀ value state other, related state other →
      Alike related (attempt (next value) state) (attempt (otherNext value) other)) :
    Alike related (attempt (first >>= next) state) (attempt (otherFirst >>= otherNext) other) := by
  obtain ⟨answers, states⟩ := alike
  rcases did : attempt first state with ⟨answer, middle⟩
  rcases otherDid : attempt otherFirst other with ⟨otherAnswer, otherMiddle⟩
  rw [did, otherDid] at answers states
  rcases byKind_eq_cases answers with ⟨value, rfl, rfl⟩ | ⟨error, otherError, rfl, rfl, kind⟩
  · rw [attempt_bind_ok next did, attempt_bind_ok otherNext otherDid]
    exact later value middle otherMiddle states
  · rw [attempt_bind_error next did, attempt_bind_error otherNext otherDid]
    exact ⟨byKind_error kind, states⟩

theorem Alike.pure (related : σ → τ → Prop) (states : related state other) (value : α) :
    Alike related (attempt (Pure.pure value) state) (attempt (Pure.pure value) other) :=
  ⟨rfl, states⟩

end Alike

/-! ### Steps -/

inductive Step
  | current
  | plan (trigger : Trigger) (branch : String)
  | next (trigger : Trigger) (branch : String)
  | apply (plan : Plan)
  deriving DecidableEq, Repr

inductive Answer
  | current (located : Located)
  | plan (plan : Plan)
  | next (version : String)
  | written (paths : List String)
  deriving DecidableEq, Repr

namespace Workflow

def take {m : Type → Type} [Monad m] (workflow : Workflow) (store : TextStore m) :
    Step → ExceptT Error m Answer
  | .current => do return .current (← workflow.current store)
  | .plan trigger branch => do return .plan (← workflow.plan store trigger branch)
  | .next trigger branch => do return .next (← workflow.nextVersion store trigger branch)
  | .apply plan => do return .written (← workflow.apply store plan)

/-- The answer to each of the steps and the state after it, where a step that fails does not
keep the later ones from being taken. -/
def trace {σ : Type} (workflow : Workflow) (store : TextStore (StateM σ)) (state : σ) :
    List Step → List (Except Error Answer × σ)
  | [] => []
  | step :: steps =>
      let taken := attempt (workflow.take store step) state
      taken :: workflow.trace store taken.2 steps

/-! ### The same steps over two kinds of files -/

section Match

variable {σ τ : Type} {files : TextFiles σ} {others : TextFiles τ} {counts : String → Prop}
  {related : σ → τ → Prop} {store : TextStore (StateM σ)} {otherStore : TextStore (StateM τ)}
  {workflow : Workflow} {state : σ} {other : τ}
  (same : files.Match others counts related) (backed : store.Over files)
  (otherBacked : otherStore.Over others)

include same backed otherBacked

private theorem alike_current (counted : counts workflow.configuration.versionFile.path)
    (states : related state other) :
    Alike related (attempt (workflow.current store) state)
      (attempt (workflow.current otherStore) other) := by
  rw [attempt_current_over backed, attempt_current_over otherBacked]
  refine ⟨?_, states⟩
  unfold currentIn
  rcases byKind_eq_cases (same.read states counted) with
    ⟨text, read, otherRead⟩ | ⟨error, otherError, unread, otherUnread, kind⟩
  · rw [read, otherRead]
  · rw [unread, otherUnread]
    exact byKind_error kind

theorem alike_plan (counted : counts workflow.configuration.versionFile.path)
    (states : related state other) (trigger : Trigger) (branch : String) :
    Alike related (attempt (workflow.plan store trigger branch) state)
      (attempt (workflow.plan otherStore trigger branch) other) := by
  have shown := (alike_current same backed otherBacked counted states).answers
  rw [attempt_current_over backed, attempt_current_over otherBacked] at shown
  rw [attempt_plan_over backed, attempt_plan_over otherBacked]
  refine ⟨?_, states⟩
  rcases byKind_eq_cases shown with
    ⟨located, found, otherFound⟩ | ⟨error, otherError, failed, otherFailed, kind⟩
  · rw [plannedIn_of_ok found, plannedIn_of_ok otherFound]
  · rw [plannedIn_of_error failed, plannedIn_of_error otherFailed]
    exact byKind_error kind

/-- An update reads before it writes, so it is refused in the same way or made in both. -/
theorem alike_update {target : Target} (counted : counts target.path)
    (states : related state other) (next : String) :
    Alike related (attempt (workflow.update store next target) state)
      (attempt (workflow.update otherStore next target) other) := by
  rw [attempt_update backed, attempt_update otherBacked]
  rcases byKind_eq_cases (same.read states counted) with
    ⟨text, read, otherRead⟩ | ⟨error, otherError, unread, otherUnread, kind⟩
  · cases locates : workflow.locate (target.select text) with
    | error error =>
        obtain ⟨nowhere, rfl⟩ := (workflow.locate_eq_error_iff _ _).mp locates
        rw [updatedIn_eq_error_iff.mpr (.unmatched read nowhere),
          updatedIn_eq_error_iff.mpr (.unmatched otherRead nowhere)]
        exact ⟨rfl, states⟩
    | ok located =>
        obtain ⟨later, otherLater, written, otherWritten, updated⟩ :=
          same.write (target.replace text (located.splice next)) states counted read otherRead
        rw [updatedIn_eq_ok_iff.mpr (.written read locates written),
          updatedIn_eq_ok_iff.mpr (.written otherRead locates otherWritten)]
        exact ⟨rfl, updated⟩
  · rw [updatedIn_eq_error_iff.mpr (.unreadable unread),
      updatedIn_eq_error_iff.mpr (.unreadable otherUnread)]
    exact ⟨byKind_error kind, states⟩

private theorem alike_updateAll {targets : List Target}
    (counted : ∀ target ∈ targets, counts target.path)
    (states : related state other) (next : String) :
    Alike related (attempt (workflow.updateAll store next targets) state)
      (attempt (workflow.updateAll otherStore next targets) other) := by
  induction targets generalizing state other with
  | nil => exact .pure related states []
  | cons target targets ih =>
      obtain ⟨here, later⟩ := List.forall_mem_cons.mp counted
      refine (alike_update same backed otherBacked here states next).bind ?_
      intro _ _ _ middle
      refine (ih later middle).bind ?_
      intro paths _ _ last
      exact .pure related last (target.path :: paths)

private theorem alike_take (counted : ∀ target ∈ workflow.configuration.targets, counts target.path)
    (states : related state other) (step : Step) :
    Alike related (attempt (workflow.take store step) state)
      (attempt (workflow.take otherStore step) other) := by
  have versionFile := (List.forall_mem_cons.mp counted).1
  cases step with
  | current =>
      exact (alike_current same backed otherBacked versionFile states).bind
        fun _ _ _ later => .pure related later _
  | plan trigger branch =>
      exact (alike_plan same backed otherBacked versionFile states trigger branch).bind
        fun _ _ _ later => .pure related later _
  | next trigger branch =>
      refine Alike.bind ?_ fun _ _ _ later => .pure related later _
      exact (alike_plan same backed otherBacked versionFile states trigger branch).bind
        fun _ _ _ later => .pure related later _
  | apply plan =>
      exact (alike_updateAll same backed otherBacked counted states plan.next).bind
        fun _ _ _ later => .pure related later _

theorem alike_trace (counted : ∀ target ∈ workflow.configuration.targets, counts target.path)
    (states : related state other) (steps : List Step) :
    List.Forall₂ (Alike related) (workflow.trace store state steps)
      (workflow.trace otherStore other steps) := by
  induction steps generalizing state other with
  | nil => exact .nil
  | cons step steps ih =>
      have taken := alike_take same backed otherBacked counted states step
      exact .cons taken (ih taken.states)

end Match

/-- If all targets have plain paths, a workflow over a directory and one over the same files in
memory cannot be told apart. Whatever steps are taken, each of them gets the same answer from
both, where errors are compared by their kind, and after each of them the same files hold the
same texts and are as ordinary as before. -/
theorem sources_agree {workflow : Workflow}
    (plain : ∀ target ∈ workflow.configuration.targets, Path.IsPlain target.path)
    {root : String} {base : List String} {tree : Tree} {memory : Memory}
    (mirrors : Mirrors root base tree memory) (steps : List Step) :
    List.Forall₂
      (fun onDisk inMemory => byKind onDisk.1 = byKind inMemory.1 ∧
        SameContents base onDisk.2 inMemory.2 ∧ Mirrors root base onDisk.2 inMemory.2)
      (workflow.trace (Tree.disk.store (some root)) tree steps)
      (workflow.trace Memory.store memory steps) :=
  (alike_trace (Mirrors.match_textFiles root base) (Tree.over_textFiles (some root))
    Memory.over_textFiles plain mirrors steps).imp
    fun _ _ alike => ⟨alike.answers, alike.states.same, alike.states⟩

def copiedWorkflow : Workflow :=
  { configuration :=
      { Configuration.default with
        versionFile := { path := "VERSION", line := none }
        files := [{ path := "docs/notes", line := some 2 }, { path := "docs", line := none }]
        rules := [
          { trigger := .commit, branch := none, bump := some "minor", reset := none
            front := none, back := none }] }
    scheme := ⟨"major", .field "." "minor" (.group (.field "." "build" .done) .done)⟩ }

def copiedTree : Tree :=
  { nodes :=
      [ (["w"], .directory),
        (["w", "p"], .directory),
        (["w", "p", "VERSION"], .file "1.2".toUTF8),
        (["w", "p", "docs"], .directory),
        (["w", "p", "docs", "notes"], .file "é 9.9\r\nat 1.1\r\n".toUTF8) ]
    workingDirectory := ["w"] }

def copiedMemory : Memory :=
  { files := [(Path.ofText "docs/notes", "é 9.9\r\nat 1.1\r\n"), (Path.ofText "VERSION", "1.2")]
    readOnly := [] }

def copiedSteps : List Step :=
  [ .next .commit "main",
    .apply
      { current := { before := "", front := none, core := "1.2", back := none, after := "" }
        next := "1.3"
        applied := [] },
    .current ]

private theorem eq_of_content?_copied {path text : String} (plain : Path.IsPlain path)
    (held : copiedMemory.content? path = some text) :
    path = "docs/notes" ∧ text = "é 9.9\r\nat 1.1\r\n" ∨ path = "VERSION" ∧ text = "1.2" := by
  obtain ⟨⟨key, stored⟩, found, rfl⟩ := Option.map_eq_some_iff.mp held
  have same : key = Path.ofText path := by simpa using List.find?_some found
  have member := List.mem_of_find?_eq_some found
  subst same
  simp only [copiedMemory, List.mem_cons, Prod.mk.injEq, List.not_mem_nil, or_false] at member
  rw [plain.ofText_eq_iff (by decide), plain.ofText_eq_iff (by decide)] at member
  exact member

private theorem mem_copied_of_node? {path : String} {node : Node}
    (stored : copiedTree.node? (["w", "p"] ++ Path.segments path) = some node) :
    (["w", "p"] ++ Path.segments path, node) ∈ copiedTree.nodes := by
  obtain ⟨⟨names, node⟩, found, rfl⟩ := Option.map_eq_some_iff.mp stored
  have same : names = ["w", "p"] ++ Path.segments path := by
    simpa using List.find?_some found
  exact same ▸ List.mem_of_find?_eq_some found

private theorem mirrors_copied : Mirrors "./p" ["w", "p"] copiedTree copiedMemory where
  directory := by rfl
  writable := rfl
  ordinary path plain present := by
    obtain ⟨text, held⟩ := Option.ne_none_iff_exists'.mp present
    rcases eq_of_content?_copied plain held with ⟨rfl, _⟩ | ⟨rfl, _⟩
    · refine ⟨?_, by decide, by decide, by decide⟩
      intro depth inside
      match depth with
      | 0 => rfl
      | 1 => rfl
    · refine ⟨?_, by decide, by decide, by decide⟩
      intro depth inside
      match depth with
      | 0 => rfl
  free path plain content access stored := by
    have member := mem_copied_of_node? stored
    simp only [copiedTree, List.mem_cons, Prod.mk.injEq, reduceCtorEq, and_false, false_or,
      Node.file.injEq, List.not_mem_nil, or_false] at member
    rcases member with ⟨_, _, free⟩ | ⟨_, _, free⟩
    · exact free
    · exact free
  same path plain text := by
    constructor
    · intro stored
      have member := mem_copied_of_node? stored
      have version : Path.segments path = ["VERSION"] ↔ path = "VERSION" :=
        (Path.segments_inj : _ = Path.segments "VERSION" ↔ _)
      have notes : Path.segments path = ["docs", "notes"] ↔ path = "docs/notes" :=
        (Path.segments_inj : _ = Path.segments "docs/notes" ↔ _)
      simp only [copiedTree, String.toUTF8, List.cons_append, List.nil_append, List.mem_cons,
        Prod.mk.injEq, List.cons.injEq, reduceCtorEq, and_false, and_self, true_and, and_true,
        version, Node.file.injEq, String.toByteArray_inj, notes, List.not_mem_nil, or_false, false_or]
        at member
      rcases member with ⟨rfl, rfl⟩ | ⟨rfl, rfl⟩
      · rfl
      · rfl
    · intro held
      rcases eq_of_content?_copied plain held with ⟨rfl, rfl⟩ | ⟨rfl, rfl⟩
      · rfl
      · rfl

/-- The plan is carried out in both until it comes to the directory. -/
theorem sources_agree_until_directory :
    (∀ target ∈ copiedWorkflow.configuration.targets, Path.IsPlain target.path) ∧
      Mirrors "./p" ["w", "p"] copiedTree copiedMemory ∧
      List.Forall₂
        (fun onDisk inMemory => byKind onDisk.1 = byKind inMemory.1 ∧
          SameContents ["w", "p"] onDisk.2 inMemory.2 ∧
          Mirrors "./p" ["w", "p"] onDisk.2 inMemory.2)
        (copiedWorkflow.trace (Tree.disk.store (some "./p")) copiedTree copiedSteps)
        (copiedWorkflow.trace Memory.store copiedMemory copiedSteps) ∧
      ((copiedWorkflow.trace Memory.store copiedMemory copiedSteps).map fun taken =>
        (byKind taken.1, taken.2.content? "docs/notes")) =
          [ (.ok (.next "1.3"), some "é 9.9\r\nat 1.1\r\n"),
            (.error .unreadable, some "é 9.9\r\nat 1.3\r\n"),
            (.ok (.current
              { before := "", front := none, core := "1.3", back := none, after := "" }),
              some "é 9.9\r\nat 1.3\r\n") ] := by
  have plain : ∀ target ∈ copiedWorkflow.configuration.targets, Path.IsPlain target.path := by
    decide
  exact ⟨plain, mirrors_copied, sources_agree plain mirrors_copied copiedSteps, by decide +kernel⟩

end Workflow

end Versioning
