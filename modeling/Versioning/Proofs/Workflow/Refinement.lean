import Versioning.Proofs.Rule.Agreement
import Versioning.Proofs.Rule.Failure
import Versioning.Proofs.Workflow.Sites
import Versioning.Proofs.Workflow.Updating

/-!
Runs of a workflow follow the rules.

A run of events does to the files what the rules do to the version alone: every event
finds the version that the last one wrote, and writes the next one in its place
everywhere. The invariant says what every file holds compared to its first content.
-/

namespace Versioning

open Memory

structure Event where
  trigger : Trigger
  branch : String

/-! ### Runs -/

namespace Workflow

def bump {m : Type → Type} [Monad m] (workflow : Workflow) (store : TextStore m)
    (event : Event) : ExceptT Error m (Plan × List String) := do
  let plan ← workflow.plan store event.trigger event.branch
  let paths ← workflow.apply store plan
  return (plan, paths)

/-- The memory after a row of events, where an event that fails does not keep the
later ones from being tried. -/
def bumpAll (workflow : Workflow) (memory : Memory) (events : List Event) : Memory :=
  events.foldl (fun memory event => (perform (workflow.bump store event) memory).2) memory

def rulesFor (workflow : Workflow) (event : Event) : List Rule :=
  matchingRules workflow.configuration.rules event.trigger event.branch

def react (workflow : Workflow) (shown : Outcome) (event : Event) : Except Error Outcome :=
  shown.version.applyRules workflow.scheme (workflow.rulesFor event)

/-- The outcome that is shown after an event, if there was one at all. -/
def advance (workflow : Workflow) (start : Outcome) (last : Option Outcome) (event : Event) :
    Option Outcome :=
  match workflow.react (last.getD start) event with
  | .ok outcome => some outcome
  | .error _ => last

def lastOutcome (workflow : Workflow) (start : Outcome) (events : List Event) :
    Option Outcome :=
  events.foldl (workflow.advance start) none

end Workflow

/-! ### What rules decide -/

namespace Workflow

variable {workflow : Workflow}

theorem react_decorated {shown outcome : Outcome} {event : Event}
    (done : workflow.react shown event = .ok outcome) :
    outcome.DecoratedBy workflow.configuration.rules :=
  .of_applyRules (fun _ member => (List.mem_filter.mp member).1) done

/-- From a literal that shows an outcome, a plan is what the rules make of it. -/
private theorem agree_planFrom (formed : workflow.scheme.WellFormed) {current : Located}
    {shown : Outcome} (core : current.core = shown.version.render workflow.scheme)
    (event : Event) :
    Agree
      (fun plan outcome => plan.current = current ∧
        plan.next = outcome.render workflow.scheme ∧ plan.applied = workflow.rulesFor event)
      (workflow.planFrom current event.trigger event.branch)
      (workflow.react shown event) := by
  obtain ⟨read, accepted, entries⟩ := Version.ofLiteral_of_render formed shown.version
  have agree := Version.agree_applyRules workflow.scheme (workflow.rulesFor event)
    (.of_entries entries)
  unfold planFrom react
  rw [core, accepted]
  refine agree.map_left (fun outcome => {
    current
    next := outcome.render workflow.scheme
    applied := workflow.rulesFor event : Plan }) ?_
  intro readOutcome outcome same
  exact ⟨rfl, same.render, rfl⟩

end Workflow

/-! ### The invariant -/

/-- Compared to the original memory, every site shows `last`, or what it showed at
first if there is none, and nothing else has changed. -/
structure Workflow.Shows (workflow : Workflow) (sites : List Site) (original : Memory)
    (last : Option Outcome) (memory : Memory) : Prop where
  decorated : ∀ outcome ∈ last, outcome.DecoratedBy workflow.configuration.rules
  readOnly : memory.readOnly = original.readOnly
  shown : ∀ site ∈ sites, ∀ text, original.content? site.target.path = some text →
    memory.content? site.target.path =
      some (site.target.replace text
        (site.text workflow.scheme (last.getD site.start)))
  frame : ∀ path, (∀ site ∈ sites, Path.ofText path ≠ Path.ofText site.target.path) →
    memory.content? path = original.content? path

namespace Workflow

variable {workflow : Workflow} {first : Site} {others : List Site} {original memory : Memory}
  {last : Option Outcome}

private theorem Arranged.decorated_getD {sites : List Site}
    (arranged : workflow.Arranged sites original)
    {site : Site} (member : site ∈ sites)
    (decorated : ∀ outcome ∈ last, outcome.DecoratedBy workflow.configuration.rules) :
    (last.getD site.start).DecoratedBy workflow.configuration.rules := by
  cases last with
  | none => exact arranged.decorated site member
  | some outcome => exact decorated outcome rfl

private theorem Arranged.shows_none {sites : List Site}
    (arranged : workflow.Arranged sites original) :
    workflow.Shows sites original none original := by
  refine ⟨fun _ impossible => ?_, rfl, ?_, fun _ _ => rfl⟩
  · cases impossible
  · intro site member text stored
    rw [Option.getD_none, ← arranged.select_eq member stored, Target.replace_select, stored]

private theorem Shows.content {sites : List Site} (arranged : workflow.Arranged sites original)
    (formed : workflow.scheme.WellFormed) (shows : workflow.Shows sites original last memory)
    {site : Site} (member : site ∈ sites) :
    ∃ text now, original.content? site.target.path = some text ∧
      memory.content? site.target.path = some now ∧
      now = site.target.replace text
        (site.text workflow.scheme (last.getD site.start)) ∧
      site.target.select now = site.text workflow.scheme (last.getD site.start) := by
  obtain ⟨text, stored, _⟩ := arranged.shows site member
  have can := arranged.canReplace formed member stored
    (arranged.decorated_getD member shows.decorated)
  exact ⟨text, _, stored, shows.shown site member text stored, rfl,
    Target.select_replace can⟩

theorem Shows.current (arranged : workflow.Arranged (first :: others) original)
    (formed : workflow.scheme.WellFormed)
    (shows : workflow.Shows (first :: others) original last memory) :
    ∃ located, perform (workflow.current store) memory = (.ok located, memory) ∧
      located.before = first.before ∧
      located.core = (last.getD first.start).version.render workflow.scheme ∧
      located.after = first.after ∧
      located.literal = (last.getD first.start).render workflow.scheme := by
  have member : first ∈ first :: others := List.mem_cons_self ..
  have versionFile : workflow.configuration.versionFile = first.target :=
    (List.cons.inj arranged.targets).1
  obtain ⟨_, now, _, stored, _, selected⟩ := shows.content arranged formed member
  obtain ⟨located, locates, parts⟩ := arranged.locate formed member
    (arranged.decorated_getD member shows.decorated)
  refine ⟨located, ?_, parts⟩
  unfold Workflow.current
  rw [perform_locateIn, versionFile, read_eq_ok_iff.mpr stored]
  simp only [Except.bind]
  rw [selected, locates]

/-- A plan made while the files show an outcome is what the rules make of it. -/
theorem Shows.agree_plan (arranged : workflow.Arranged (first :: others) original)
    (formed : workflow.scheme.WellFormed)
    (shows : workflow.Shows (first :: others) original last memory) (event : Event) :
    ∃ answer,
      perform (workflow.plan store event.trigger event.branch) memory = (answer, memory) ∧
        Agree
          (fun plan outcome =>
            plan.current.literal = (last.getD first.start).render workflow.scheme ∧
              plan.next = outcome.render workflow.scheme ∧
              plan.applied = workflow.rulesFor event)
          answer (workflow.react (last.getD first.start) event) := by
  obtain ⟨located, found, _, core, _, literal⟩ := shows.current arranged formed
  refine ⟨workflow.planFrom located event.trigger event.branch, ?_, ?_⟩
  · refine (attempt_plan workflow store event.trigger event.branch memory).trans ?_
    change attempt (workflow.current store) memory = _ at found
    rw [found]
  · refine (agree_planFrom formed core event).mono ?_
    rintro plan outcome ⟨currentEq, next, applied⟩
    refine ⟨?_, next, applied⟩
    rw [currentEq, literal]

theorem Shows.apply {sites : List Site} (arranged : workflow.Arranged sites original)
    (formed : workflow.scheme.WellFormed) (shows : workflow.Shows sites original last memory)
    {outcome : Outcome} (decorated : outcome.DecoratedBy workflow.configuration.rules)
    {plan : Plan} (next : plan.next = outcome.render workflow.scheme) :
    ∃ later,
      perform (workflow.apply store plan) memory =
        (.ok (workflow.configuration.targets.map Target.path), later) ∧
      workflow.Shows sites original (some outcome) later := by
  have found : ∀ target ∈ workflow.configuration.targets, ∃ text located,
      memory.content? target.path = some text ∧
        workflow.locate (target.select text) = .ok located := by
    intro target member
    rw [arranged.targets] at member
    obtain ⟨site, isSite, rfl⟩ := List.mem_map.mp member
    obtain ⟨_, now, _, stored, _, selected⟩ := shows.content arranged formed isSite
    obtain ⟨located, locates, _⟩ := arranged.locate formed isSite
      (arranged.decorated_getD isSite shows.decorated)
    exact ⟨now, located, stored, by rw [selected, locates]⟩
  have writable : ∀ target ∈ workflow.configuration.targets,
      Path.ofText target.path ∉ memory.readOnly := by
    rw [shows.readOnly]
    exact arranged.writable
  obtain ⟨later, all, written⟩ :=
    exists_updatesAll plan.next arranged.distinct writable found
  obtain ⟨readOnly, frame⟩ := all.frame
  refine ⟨later, (attempt_updateAll_eq_ok_iff over_textFiles).mpr ⟨rfl, all⟩, ?_⟩
  refine ⟨?_, readOnly.trans shows.readOnly, ?_, ?_⟩
  · intro other same
    cases same
    exact decorated
  · intro site member text stored
    have isTarget : site.target ∈ workflow.configuration.targets := by
      rw [arranged.targets]
      exact List.mem_map_of_mem member
    have shownDecorated := arranged.decorated_getD member shows.decorated
    obtain ⟨other, now, otherStored, nowStored, nowEq, selected⟩ :=
      shows.content arranged formed member
    rw [stored] at otherStored
    have same := Option.some.inj otherStored
    subst same
    obtain ⟨located, locates, before, _, after, _⟩ :=
      arranged.locate formed member shownDecorated
    have update := written site.target isTarget now located nowStored
      (by rw [selected, locates])
    have spliced : located.splice plan.next = site.text workflow.scheme outcome := by
      rw [Located.splice, before, after, next, Site.text]
    rw [update, spliced, nowEq, Option.getD_some,
      Target.replace_replace _ (arranged.canReplace formed member stored shownDecorated)]
  · intro path apart
    rw [← shows.frame path apart]
    refine frame path ?_
    intro target member
    rw [arranged.targets] at member
    obtain ⟨site, isSite, rfl⟩ := List.mem_map.mp member
    exact apart site isSite

/-! ### Steps and runs -/

theorem Shows.bump_of_error (arranged : workflow.Arranged (first :: others) original)
    (formed : workflow.scheme.WellFormed)
    (shows : workflow.Shows (first :: others) original last memory) {event : Event}
    {error : Error} (refused : workflow.react (last.getD first.start) event = .error error) :
    perform (workflow.bump store event) memory = (.error error, memory) := by
  obtain ⟨answer, planned, agree⟩ := shows.agree_plan arranged formed event
  rw [refused] at agree
  cases agree with
  | failed => exact perform_bind_error _ planned

theorem Shows.bump_of_ok (arranged : workflow.Arranged (first :: others) original)
    (formed : workflow.scheme.WellFormed)
    (shows : workflow.Shows (first :: others) original last memory) {event : Event}
    {outcome : Outcome}
    (answered : workflow.react (last.getD first.start) event = .ok outcome) :
    ∃ plan later,
      perform (workflow.bump store event) memory =
        (.ok (plan, workflow.configuration.targets.map Target.path), later) ∧
      plan.current.literal = (last.getD first.start).render workflow.scheme ∧
      plan.next = outcome.render workflow.scheme ∧
      plan.applied = workflow.rulesFor event ∧
      workflow.Shows (first :: others) original (some outcome) later := by
  obtain ⟨answer, planned, agree⟩ := shows.agree_plan arranged formed event
  rw [answered] at agree
  cases agree with
  | @done plan _ follows =>
      obtain ⟨literal, next, applied⟩ := follows
      obtain ⟨later, carriedOut, showsLater⟩ :=
        shows.apply arranged formed (react_decorated answered) next
      refine ⟨plan, later, ?_, literal, next, applied, showsLater⟩
      unfold bump
      rw [perform_bind_ok _ planned, perform_bind_ok _ carriedOut]
      exact perform_pure _ later

/-- After one more event the files show what the rules have made of it. -/
theorem Shows.step (arranged : workflow.Arranged (first :: others) original)
    (formed : workflow.scheme.WellFormed)
    (shows : workflow.Shows (first :: others) original last memory) (event : Event) :
    workflow.Shows (first :: others) original (workflow.advance first.start last event)
      (perform (workflow.bump store event) memory).2 := by
  unfold advance
  cases reaction : workflow.react (last.getD first.start) event with
  | error error =>
      rw [shows.bump_of_error arranged formed reaction]
      exact shows
  | ok outcome =>
      obtain ⟨plan, later, carriedOut, _, _, _, showsLater⟩ :=
        shows.bump_of_ok arranged formed reaction
      rw [carriedOut]
      exact showsLater

theorem Shows.run (arranged : workflow.Arranged (first :: others) original)
    (formed : workflow.scheme.WellFormed)
    (shows : workflow.Shows (first :: others) original last memory) (events : List Event) :
    workflow.Shows (first :: others) original
      (events.foldl (workflow.advance first.start) last) (workflow.bumpAll memory events) := by
  induction events generalizing last memory with
  | nil => exact shows
  | cons event events ih => exact ih (shows.step arranged formed event)

/-- Whatever happens to a project, its files follow the rules. After any row of
events every site shows the last outcome of the rules, the rest of the files is as it
was, and the current version is that outcome again. The next event then does what the
rules do to that outcome: it is refused with the same error, which can only be an overflow,
and changes nothing, or its plan replaces the one by the other and is carried out in every
target. -/
theorem bumpAll_follows_rules {configuration : Configuration} {workflow : Workflow}
    (created : create configuration = .ok workflow) {memory : Memory} {first : Site}
    {others : List Site} (arranged : workflow.Arranged (first :: others) memory)
    (events : List Event) :
    workflow.Shows (first :: others) memory (workflow.lastOutcome first.start events)
      (workflow.bumpAll memory events) ∧
    (∀ site ∈ first :: others, ∃ now,
      (workflow.bumpAll memory events).content? site.target.path = some now ∧
        site.target.select now =
          site.text workflow.scheme
            ((workflow.lastOutcome first.start events).getD site.start)) ∧
    (∃ located,
      perform (workflow.current store) (workflow.bumpAll memory events) =
          (.ok located, workflow.bumpAll memory events) ∧
        located.before = first.before ∧
        located.core =
          ((workflow.lastOutcome first.start events).getD first.start).version.render
            workflow.scheme ∧
        located.after = first.after ∧
        located.literal =
          ((workflow.lastOutcome first.start events).getD first.start).render
            workflow.scheme) ∧
    (∀ event error,
      workflow.react ((workflow.lastOutcome first.start events).getD first.start) event =
          .error error →
        perform (workflow.bump store event) (workflow.bumpAll memory events) =
            (.error error, workflow.bumpAll memory events) ∧
          ∃ name digits, error = .fieldOverflow name digits) ∧
    ∀ event outcome,
      workflow.react ((workflow.lastOutcome first.start events).getD first.start) event =
          .ok outcome →
        ∃ plan,
          (perform (workflow.bump store event) (workflow.bumpAll memory events)).1 =
              .ok (plan, configuration.targets.map Target.path) ∧
            plan.current.literal =
              ((workflow.lastOutcome first.start events).getD first.start).render
                workflow.scheme ∧
            plan.next = outcome.render workflow.scheme ∧
            plan.applied = workflow.rulesFor event := by
  obtain ⟨sameConfiguration, ⟨definition, _, compiled⟩, fits⟩ := create_eq_ok created
  have formed := Scheme.wellFormed_of_compile compiled
  have shows : workflow.Shows (first :: others) memory
      (workflow.lastOutcome first.start events) (workflow.bumpAll memory events) :=
    arranged.shows_none.run arranged formed events
  refine ⟨shows, ?_, shows.current arranged formed, ?_, ?_⟩
  · intro site member
    obtain ⟨_, now, _, stored, _, selected⟩ := shows.content arranged formed member
    exact ⟨now, stored, selected⟩
  · intro event error refused
    refine ⟨shows.bump_of_error arranged formed refused, ?_⟩
    rw [← sameConfiguration] at fits
    exact Version.applyRules_eq_error fits
      (fun _ member => (List.mem_filter.mp member).1) refused
  · intro event outcome answered
    obtain ⟨plan, later, carriedOut, literal, next, applied, _⟩ :=
      shows.bump_of_ok arranged formed answered
    rw [sameConfiguration] at carriedOut
    exact ⟨plan, by rw [carriedOut], literal, next, applied⟩

/-! ### A release in two files -/

def sampleConfiguration : Configuration :=
  { schemeName := "semantic"
    definition := none
    versionFile := { path := "VERSION", line := none }
    files := [{ path := "package", line := some 2 }]
    rules := [
      { trigger := .commit, branch := none, bump := some "build", reset := none
        front := none, back := some "-dev" },
      { trigger := .manual, branch := none, bump := some "minor"
        reset := some (.one "build"), front := some "v", back := none }] }

def sampleWorkflow : Workflow :=
  { configuration := sampleConfiguration
    scheme := ⟨"major", .field "." "minor" (.group (.field "." "build" .done) .done)⟩ }

def sampleMemory : Memory :=
  { files := [
      (Path.ofText "VERSION", "1.2"),
      (Path.ofText "package", "name\r\nversion v1.1-dev;\r\nend")]
    readOnly := [] }

def sampleFirst : Site :=
  { target := { path := "VERSION", line := none }
    before := ""
    start := {
      version := .ofPairs [("major", 1), ("minor", 2), ("build", 0)]
      front := none, back := none }
    after := "" }

def sampleOther : Site :=
  { target := { path := "package", line := some 2 }
    before := "version "
    start := {
      version := .ofPairs [("build", 0), ("major", 1), ("minor", 1)]
      front := some "v", back := some "-dev" }
    after := ";" }

private theorem eq_of_mem_sampleBacks {back : String}
    (member : back ∈ sampleConfiguration.rules.filterMap Rule.back ∨ back = "") :
    back = "-dev" ∨ back = "" :=
  member.imp_left fun listed => by simpa [sampleConfiguration] using listed

private theorem sampleWorkflow_arranged :
    sampleWorkflow.Arranged [sampleFirst, sampleOther] sampleMemory where
  targets := rfl
  distinct := by decide
  writable := by
    intro target member
    exact List.not_mem_nil
  shows := by
    intro site member
    simp only [List.mem_cons, List.not_mem_nil, or_false] at member
    rcases member with rfl | rfl
    · exact ⟨"1.2", rfl, rfl⟩
    · exact ⟨"name\r\nversion v1.1-dev;\r\nend", rfl, rfl⟩
  decorated := by
    intro site member
    simp only [List.mem_cons, List.not_mem_nil, or_false] at member
    rcases member with rfl | rfl
    · exact ⟨by decide, by decide⟩
    · exact ⟨by decide, by decide⟩
  apart := by
    refine ⟨?_, by decide, by decide⟩
    intro front member
    have same : front = "v" := by simpa [sampleWorkflow, sampleConfiguration] using member
    subst same
    exact noDigit_of_all rfl
  surrounds := by
    intro site member
    simp only [List.mem_cons, List.not_mem_nil, or_false] at member
    rcases member with rfl | rfl
    · refine ⟨noDigit_of_all rfl, by decide, by decide, ?_⟩
      intro back member
      rcases eq_of_mem_sampleBacks member with rfl | rfl
      · exact Scheme.endsBefore_of_not_prefix (by decide) (by decide)
      · exact Scheme.endsBefore_of_not_prefix (by decide) (by decide)
    · refine ⟨noDigit_of_all rfl, by decide, by decide, ?_⟩
      intro back member
      rcases eq_of_mem_sampleBacks member with rfl | rfl
      · exact Scheme.endsBefore_of_not_prefix (by decide) (by decide)
      · exact Scheme.endsBefore_of_not_prefix (by decide) (by decide)
  lines := by
    intro limited
    unfold StaysOnLine
    decide

/-- A commit and a release: the version file and the line of the package both show what
the release has made of the version that the commit wrote. -/
theorem bumpAll_follows_rules_release :
    create sampleConfiguration = .ok sampleWorkflow ∧
      sampleWorkflow.Arranged [sampleFirst, sampleOther] sampleMemory ∧
      (sampleWorkflow.bumpAll sampleMemory
        [⟨.commit, "main"⟩, ⟨.manual, "main"⟩]).content? "VERSION" = some "v1.3" ∧
      (sampleWorkflow.bumpAll sampleMemory
        [⟨.commit, "main"⟩, ⟨.manual, "main"⟩]).content? "package" =
          some "name\r\nversion v1.3;\r\nend" := by
  have created : create sampleConfiguration = .ok sampleWorkflow := by rfl
  have run := bumpAll_follows_rules created sampleWorkflow_arranged
    [⟨.commit, "main"⟩, ⟨.manual, "main"⟩]
  have versionFile := run.1.shown sampleFirst (List.mem_cons_self ..) "1.2" rfl
  have package := run.1.shown sampleOther (List.mem_cons_of_mem _ (List.mem_cons_self ..))
    "name\r\nversion v1.1-dev;\r\nend" rfl
  exact ⟨created, sampleWorkflow_arranged, versionFile, package⟩

end Workflow

end Versioning
