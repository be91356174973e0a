import Versioning.Proofs.Located
import Versioning.Proofs.Store.Memory
import Versioning.Workflow

/-!
Places that show a version.

A project shows its version in several places, each with some text around it. When
these texts cannot be taken for a part of the version, what a place shows can be
found, and can be replaced by any other decorated version.
-/

namespace Versioning

/-- A target with the decorated version it shows at first and the text around it. -/
structure Site where
  target : Target
  before : String
  start : Outcome
  after : String

def Site.text (site : Site) (scheme : Scheme) (shown : Outcome) : String :=
  site.before ++ shown.render scheme ++ site.after

def StaysOnLine (text : String) : Prop :=
  '\n' ∉ text.toList ∧ '\r' ∉ text.toList

/-- The files of a workflow show a version in different files that can be written,
each between texts from which it can be told. Where only a line is selected, nothing
that is written may end it. -/
structure Workflow.Arranged (workflow : Workflow) (sites : List Site) (memory : Memory) :
    Prop where
  targets : workflow.configuration.targets = sites.map Site.target
  distinct : (workflow.configuration.targets.map fun target =>
    Path.ofText target.path).Nodup
  writable : ∀ target ∈ workflow.configuration.targets,
    Path.ofText target.path ∉ memory.readOnly
  shows : ∀ site ∈ sites, ∃ text, memory.content? site.target.path = some text ∧
    site.target.select text = site.text workflow.scheme site.start
  decorated : ∀ site ∈ sites, site.start.DecoratedBy workflow.configuration.rules
  apart : DecorationsApart workflow.configuration.rules
  surrounds : ∀ site ∈ sites,
    workflow.scheme.Surrounds workflow.configuration.rules site.before site.after
  lines : (∃ target ∈ workflow.configuration.targets, target.line ≠ none) →
    (∀ field ∈ workflow.scheme.fields, StaysOnLine field.separator) ∧
      (∀ front ∈ workflow.configuration.rules.filterMap Rule.front, StaysOnLine front) ∧
      ∀ back ∈ workflow.configuration.rules.filterMap Rule.back, StaysOnLine back

/-! ### Replacing what a site shows -/

private theorem StaysOnLine.render {scheme : Scheme} (formed : scheme.WellFormed) {outcome : Outcome}
    (separators : ∀ field ∈ scheme.fields, StaysOnLine field.separator)
    (front : StaysOnLine (outcome.front.getD "")) (back : StaysOnLine (outcome.back.getD "")) :
    StaysOnLine (outcome.render scheme) := by
  have derivation := scheme.whole.derives_kept outcome.version (outcome.version.cut scheme) 0
  have core : StaysOnLine (outcome.version.render scheme) := by
    unfold StaysOnLine
    rw [outcome.version.toList_render formed]
    constructor
    · intro member
      rcases derivation.mem_text 0 member with digit | ⟨field, known, inSeparator⟩
      · cases digit
      · exact (separators field known).1 inSeparator
    · intro member
      rcases derivation.mem_text 0 member with digit | ⟨field, known, inSeparator⟩
      · cases digit
      · exact (separators field known).2 inSeparator
  unfold StaysOnLine at front core back ⊢
  simp only [Outcome.render, String.toList_append, List.mem_append, not_or]
  exact ⟨⟨⟨front.1, core.1⟩, back.1⟩, ⟨⟨front.2, core.2⟩, back.2⟩⟩

theorem Outcome.render_ne_empty {scheme : Scheme} (formed : scheme.WellFormed)
    (outcome : Outcome) : (outcome.render scheme).toList ≠ [] := by
  intro none
  have digits := (outcome.version.isRun_digits scheme.lead).1
  rw [Outcome.render, String.toList_append, String.toList_append,
    outcome.version.toList_render formed] at none
  simp [Scheme.whole, Body.keptText, digits] at none

/-- A decorated version can replace another one between the same texts on a line. -/
theorem Line.canReplace_between {before after old new : List Char} (filled : new ≠ [])
    (noFeed : '\n' ∉ before ++ old ++ after) (newFeed : '\n' ∉ new) (newReturn : '\r' ∉ new) :
    Line.CanReplace (before ++ old ++ after) (before ++ new ++ after) := by
  have last {front back : List Char} (some : back ≠ []) :
      (front ++ back).getLast? = back.getLast? := by
    rw [List.getLast?_append, List.getLast?_eq_some_getLast some, Option.some_or]
  simp only [List.mem_append, not_or] at noFeed
  refine ⟨?_, ?_, ?_⟩
  · simp [filled]
  · simp only [List.mem_append, not_or]
    exact ⟨⟨noFeed.1.1, newFeed⟩, noFeed.2⟩
  · intro atEnd
    by_cases ended : after = []
    · subst ended
      rw [List.append_nil, last filled] at atEnd
      exact absurd (List.mem_of_getLast? atEnd) newReturn
    · rw [last ended] at atEnd ⊢
      exact atEnd

namespace Workflow

theorem Arranged.locate {workflow : Workflow} {sites : List Site} {original : Memory}
    (arranged : workflow.Arranged sites original) (formed : workflow.scheme.WellFormed)
    {site : Site} (member : site ∈ sites) {shown : Outcome}
    (decorated : shown.DecoratedBy workflow.configuration.rules) :
    ∃ located, workflow.locate (site.text workflow.scheme shown) = .ok located ∧
      located.before = site.before ∧
      located.core = shown.version.render workflow.scheme ∧
      located.after = site.after ∧ located.literal = shown.render workflow.scheme :=
  formed.locate_render arranged.apart decorated (arranged.surrounds site member)

private theorem Arranged.staysOnLine {workflow : Workflow} {sites : List Site} {original : Memory}
    (arranged : workflow.Arranged sites original) (formed : workflow.scheme.WellFormed)
    {site : Site} (member : site ∈ sites) (limited : site.target.line ≠ none)
    {shown : Outcome} (decorated : shown.DecoratedBy workflow.configuration.rules) :
    StaysOnLine (shown.render workflow.scheme) := by
  have known : site.target ∈ workflow.configuration.targets := by
    rw [arranged.targets]
    exact List.mem_map_of_mem member
  obtain ⟨separators, fronts, backs⟩ := arranged.lines ⟨site.target, known, limited⟩
  have empty : StaysOnLine "" := ⟨List.not_mem_nil, List.not_mem_nil⟩
  refine StaysOnLine.render formed separators ?_ ?_
  · rcases getD_known decorated.front with front | none
    · exact fronts _ front
    · rw [none]
      exact empty
  · rcases getD_known decorated.back with back | none
    · exact backs _ back
    · rw [none]
      exact empty

theorem Arranged.select_eq {workflow : Workflow} {sites : List Site} {original : Memory}
    (arranged : workflow.Arranged sites original) {site : Site} (member : site ∈ sites)
    {text : String} (stored : original.content? site.target.path = some text) :
    site.target.select text = site.text workflow.scheme site.start := by
  obtain ⟨other, otherStored, selected⟩ := arranged.shows site member
  rw [stored] at otherStored
  rw [Option.some.inj otherStored, selected]

theorem Arranged.canReplace {workflow : Workflow} {sites : List Site} {original : Memory}
    (arranged : workflow.Arranged sites original) (formed : workflow.scheme.WellFormed)
    {site : Site} (member : site ∈ sites) {text : String}
    (stored : original.content? site.target.path = some text) {shown : Outcome}
    (decorated : shown.DecoratedBy workflow.configuration.rules) :
    site.target.CanReplace text (site.text workflow.scheme shown) := by
  intro number line
  have selected := arranged.select_eq member stored
  have limited : site.target.line ≠ none := by
    rw [line]
    exact Option.some_ne_none number
  have onLine : Line.select text (some number) =
      site.text workflow.scheme site.start := by
    rw [← selected, Target.select, line]
  have noFeed := Line.feed_not_mem_select text (some number)
  have stays := arranged.staysOnLine formed member limited decorated
  rw [onLine] at noFeed ⊢
  simp only [Site.text, String.toList_append] at noFeed ⊢
  exact Line.canReplace_between (shown.render_ne_empty formed) noFeed stays.1 stays.2

end Workflow

end Versioning
