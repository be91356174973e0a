import Versioning.Proofs.Workflow.Planning
import Versioning.Proofs.Workflow.Sites

/-!
Targets in any order.

Updates of different files, or of different lines of one file, do not disturb one another
as long as the new version stays on its line: then no line moves, and each is found and
rewritten as if it were the only one. Two such updates can be exchanged, so a plan can be
carried out in any order.
-/

namespace Versioning

open Memory

/-- The targets are in different files, or they select different lines of one file. -/
def Target.Independent (memory : Memory) (first second : Target) : Prop :=
  Path.ofText first.path ≠ Path.ofText second.path ∨
    ∃ text, memory.content? first.path = some text ∧ SelectApart text first second

theorem Target.Independent.symm {memory : Memory} {first second : Target}
    (independent : Independent memory first second) : Independent memory second first := by
  by_cases same : Path.ofText first.path = Path.ofText second.path
  · obtain ⟨text, stored, apart⟩ := independent.resolve_left fun different => different same
    rw [content?_congr same] at stored
    exact .inr ⟨text, stored, apart.symm⟩
  · exact .inl fun equal => same equal.symm

namespace Workflow

variable {workflow : Workflow} {next : String}

/-! ### Versions that stay on their line -/

private theorem next_ne_empty {σ : Type} (formed : workflow.scheme.WellFormed)
    {source : TextStore (StateM σ)} {state later : σ} {trigger : Trigger} {branch : String}
    {plan : Plan} (made : attempt (workflow.plan source trigger branch) state = (.ok plan, later)) :
    plan.next.toList ≠ [] := by
  rcases current : attempt (workflow.current source) state with ⟨error | located, middle⟩
  · rw [plan_of_current_error current] at made
    cases made
  · rw [plan_of_current current] at made
    have planned : workflow.planFrom located trigger branch = .ok plan := congrArg Prod.fst made
    obtain ⟨version, _, rest⟩ := bind_eq_ok.mp planned
    obtain ⟨outcome, _, same⟩ := bind_eq_ok.mp rest
    cases same
    exact outcome.render_ne_empty formed

/-- A version that ends no line can replace the one that was found on a line. -/
private theorem canReplace_splice (filled : next.toList ≠ []) (stays : StaysOnLine next)
    {target : Target} {text : String} {located : Located}
    (locates : workflow.locate (target.select text) = .ok located) :
    target.CanReplace text (located.splice next) := by
  intro number line
  have joined := Scheme.joined_of_locate locates
  have onLine : target.select text = Line.select text (some number) := by
    unfold Target.select
    rw [line]
  have noFeed := Line.feed_not_mem_select text (some number)
  rw [← onLine, ← joined] at noFeed ⊢
  simp only [Located.splice, String.toList_append] at noFeed ⊢
  exact Line.canReplace_between filled noFeed stays.1 stays.2

/-! ### Two updates -/

theorem updates_comm (filled : next.toList ≠ []) (stays : StaysOnLine next)
    {memory middle later : Memory} {first second : Target}
    (independent : Target.Independent memory first second)
    (one : workflow.Updates textFiles next memory first middle)
    (two : workflow.Updates textFiles next middle second later) :
    ∃ other, workflow.Updates textFiles next memory second other ∧
      workflow.Updates textFiles next other first later := by
  obtain ⟨text, located, stored, locates, writable, rfl⟩ := updates_iff.mp one
  obtain ⟨secondText, secondLocated, secondStored, secondLocates, secondWritable, rfl⟩ :=
    updates_iff.mp two
  by_cases same : Path.ofText first.path = Path.ofText second.path
  · obtain ⟨known, knownStored, apart⟩ := independent.resolve_left fun ne => ne same
    rw [stored] at knownStored
    cases knownStored
    have can := canReplace_splice filled stays locates
    rw [content?_insert, if_pos same.symm] at secondStored
    cases secondStored
    rw [Target.select_replace_of_apart apart can] at secondLocates
    have secondCan := canReplace_splice filled stays secondLocates
    refine ⟨memory.insert second.path (second.replace text (secondLocated.splice next)),
      updates_iff.mpr ⟨text, secondLocated, ?_, secondLocates, secondWritable, rfl⟩,
      updates_iff.mpr ⟨second.replace text (secondLocated.splice next), located, ?_, ?_,
        writable, ?_⟩⟩
    · rw [content?_congr same.symm, stored]
    · rw [content?_insert, if_pos same]
    · rw [Target.select_replace_of_apart apart.symm secondCan]
      exact locates
    · rw [insert_insert same, insert_insert same.symm, insert_congr same.symm,
        Target.replace_replace_comm apart can secondCan]
  · have different : Path.ofText second.path ≠ Path.ofText first.path :=
      fun equal => same equal.symm
    rw [content?_insert_of_ne memory _ different] at secondStored
    refine ⟨memory.insert second.path (second.replace secondText (secondLocated.splice next)),
      updates_iff.mpr ⟨secondText, secondLocated, secondStored, secondLocates, secondWritable,
        rfl⟩,
      updates_iff.mpr ⟨text, located, ?_, locates, writable, ?_⟩⟩
    · rw [content?_insert_of_ne memory _ same, stored]
    · exact (insert_comm same stored _ _).symm

/-- An update leaves targets apart that are independent of its own. -/
theorem Updates.independent (filled : next.toList ≠ []) (stays : StaysOnLine next)
    {memory later : Memory} {updated first second : Target}
    (updates : workflow.Updates textFiles next memory updated later)
    (fromFirst : Target.Independent memory updated first)
    (independent : Target.Independent memory first second) :
    Target.Independent later first second := by
  obtain ⟨text, located, stored, locates, _, rfl⟩ := updates_iff.mp updates
  rcases independent with different | ⟨known, knownStored, apart⟩
  · exact .inl different
  · right
    by_cases same : Path.ofText updated.path = Path.ofText first.path
    · obtain ⟨other, otherStored, otherApart⟩ := fromFirst.resolve_left fun ne => ne same
      rw [content?_congr same, knownStored] at stored otherStored
      cases stored
      cases otherStored
      obtain ⟨here, there, firstHere, secondThere, ne⟩ := apart
      have can := canReplace_splice filled stays locates
      obtain ⟨_, _, line, _, places⟩ := otherApart.lines
      have limited : updated.line ≠ none := by
        rw [line]
        exact Option.some_ne_none _
      have kept := Target.place?_replace (Line.ne_empty_of_place_ne places) limited can
      refine ⟨_, by rw [content?_insert, if_pos same.symm], here, there, ?_, ?_, ne⟩
      · rw [kept, firstHere]
      · rw [kept, secondThere]
    · refine ⟨known, ?_, apart⟩
      rw [content?_insert_of_ne memory _ fun equal => same equal.symm, knownStored]

/-! ### Any order -/

theorem UpdatesAll.perm (filled : next.toList ≠ []) (stays : StaysOnLine next)
    {targets others : List Target} (order : targets.Perm others)
    {memory later : Memory} (independent : targets.Pairwise (Target.Independent memory))
    (all : workflow.UpdatesAll textFiles next memory targets later) :
    workflow.UpdatesAll textFiles next memory others later := by
  -- Exchanging neighbours is enough; what they have left is the same memory, so the
  -- updates after them are too.
  induction order generalizing memory later with
  | nil => exact all
  | cons target _ ih =>
      cases all with
      | next first rest =>
          obtain ⟨fromTarget, others⟩ := List.pairwise_cons.mp independent
          refine .next first (ih ?_ rest)
          refine others.imp_of_mem ?_
          intro left right leftMember _ apart
          exact first.independent filled stays (fromTarget left leftMember) apart
  | swap first second targets =>
      cases all with
      | next one rest =>
          cases rest with
          | next two rest =>
              obtain ⟨fromSecond, _⟩ := List.pairwise_cons.mp independent
              obtain ⟨other, two, one⟩ := updates_comm filled stays
                (fromSecond first (List.mem_cons_self ..)) one two
              exact .next two (.next one rest)
  | trans order _ ihFirst ihSecond =>
      have between := (order.pairwise_iff fun {_ _} apart => apart.symm).mp independent
      exact ihSecond between (ihFirst independent all)

/-- The order of independent targets does not matter. If a plan can be carried out in one
order of its targets and its version stays on its line, it can be carried out in every
other order, with any of them as the version file, and leaves the same files. -/
theorem apply_any_order {configuration : Configuration} {workflow : Workflow}
    (created : create configuration = .ok workflow) {σ : Type} {source : TextStore (StateM σ)}
    {state after : σ} {trigger : Trigger} {branch : String} {plan : Plan}
    (made : attempt (workflow.plan source trigger branch) state = (.ok plan, after))
    (stays : StaysOnLine plan.next) {memory later : Memory} {paths : List String}
    (independent : configuration.targets.Pairwise (Target.Independent memory))
    (done : perform (workflow.apply store plan) memory = (.ok paths, later))
    {versionFile : Target} {files : List Target}
    (order : configuration.targets.Perm (versionFile :: files)) :
    ∃ reordered, create { configuration with versionFile, files } = .ok reordered ∧
      perform (reordered.apply store plan) memory =
        (.ok ((versionFile :: files).map Target.path), later) := by
  obtain ⟨sameConfiguration, ⟨definition, _, compiled⟩, _⟩ := create_eq_ok created
  have formed := Scheme.wellFormed_of_compile compiled
  obtain ⟨_, all⟩ := (attempt_updateAll_eq_ok_iff over_textFiles).mp done
  rw [sameConfiguration] at all
  have others := all.perm (next_ne_empty formed made) stays order independent
  refine ⟨_, create_retarget created versionFile files,
    (attempt_updateAll_eq_ok_iff over_textFiles).mpr ⟨rfl, others.of_locate ?_⟩⟩
  intro text
  unfold locate
  rw [sameConfiguration]

def mirroredConfiguration : Configuration :=
  { Configuration.default with
    versionFile := { path := "docs/notes", line := some 0 }
    files := [{ path := "VERSION", line := none }, { path := "docs/./notes", line := some 7 }]
    rules := [
      { trigger := .commit, branch := none, bump := some "build", reset := none
        front := none, back := some "-dev" }] }

def mirroredWorkflow : Workflow :=
  { configuration := mirroredConfiguration
    scheme := ⟨"major", .field "." "minor" (.group (.field "." "build" .done) .done)⟩ }

def mirroredMemory : Memory :=
  { files := [(Path.ofText "docs/notes", "at 1.9\r\n1.9\nv1.9-dev"),
      (Path.ofText "VERSION", "1.9\n")]
    readOnly := [] }

def mirroredPlan : Plan :=
  { current := { before := "at ", front := none, core := "1.9", back := none, after := "" }
    next := "1.9.1-dev"
    applied := mirroredConfiguration.rules }

def bumpedMemory : Memory :=
  { files := [(Path.ofText "docs/notes", "at 1.9.1-dev\r\n1.9\nv1.9.1-dev"),
      (Path.ofText "VERSION", "1.9.1-dev\n")]
    readOnly := [] }

private theorem mirrored_independent :
    mirroredConfiguration.targets.Pairwise (Target.Independent mirroredMemory) := by
  refine .cons ?_ (.cons ?_ (.cons ?_ .nil))
  · intro other member
    rcases List.mem_cons.mp member with rfl | member
    · exact .inl (by decide)
    · cases List.mem_singleton.mp member
      exact .inr ⟨"at 1.9\r\n1.9\nv1.9-dev", rfl, 0, 2, rfl, rfl, by decide⟩
  · intro other member
    cases List.mem_singleton.mp member
    exact .inl (by decide)
  · intro other member
    cases member

/-- The last line may as well come first and the file that was read for the plan last. -/
theorem apply_any_order_last_line_first :
    create mirroredConfiguration = .ok mirroredWorkflow ∧
    attempt (mirroredWorkflow.plan store .commit "main") mirroredMemory =
      (.ok mirroredPlan, mirroredMemory) ∧
    perform (mirroredWorkflow.apply store mirroredPlan) mirroredMemory =
      (.ok ["docs/notes", "VERSION", "docs/./notes"], bumpedMemory) ∧
    ∃ reordered,
      create { mirroredConfiguration with
        versionFile := { path := "docs/./notes", line := some 7 }
        files := [{ path := "docs/notes", line := some 0 },
          { path := "VERSION", line := none }] } = .ok reordered ∧
      perform (reordered.apply store mirroredPlan) mirroredMemory =
        (.ok ["docs/./notes", "docs/notes", "VERSION"], bumpedMemory) := by
  have created : create mirroredConfiguration = .ok mirroredWorkflow := by rfl
  have made : attempt (mirroredWorkflow.plan store .commit "main") mirroredMemory =
      (.ok mirroredPlan, mirroredMemory) := by rfl
  have done : perform (mirroredWorkflow.apply store mirroredPlan) mirroredMemory =
      (.ok ["docs/notes", "VERSION", "docs/./notes"], bumpedMemory) := by
    refine (attempt_updateAll_eq_ok_iff over_textFiles).mpr ⟨rfl, ?_⟩
    exact .next (updatedIn_eq_ok_iff.mp rfl) (.next (updatedIn_eq_ok_iff.mp rfl)
      (.next (updatedIn_eq_ok_iff.mp rfl) (.done _)))
  have order : mirroredConfiguration.targets.Perm
      [{ path := "docs/./notes", line := some 7 }, { path := "docs/notes", line := some 0 },
        { path := "VERSION", line := none }] := by decide
  exact ⟨created, made, done, apply_any_order created made ⟨by decide, by decide⟩
    mirrored_independent done order⟩

end Workflow

end Versioning
