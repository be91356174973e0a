import Versioning.Configuration
import Versioning.Proofs.Located
import Versioning.Proofs.Scheme.Leftmost

/-!
Which decorated versions are read back.

The rules that write a decoration are those that match an event, but every rule lends
its decorations to a search, and the first one that fits is taken. So what was written
is found as it was written exactly when no version starts before the core, nothing
behind the core is preferred as a part of it, and no other decoration that fits is
listed before the one that was written.
-/

namespace Versioning

namespace Scheme

/-! ### What is read behind a core -/

/-- Whatever could be read of a core and the start of what follows it, some way to read
the core alone is preferred to that. -/
def ReadsAlone (scheme : Scheme) (core following : List Char) : Prop :=
  ∀ choice captures more rest, more ++ rest = following → more ≠ [] →
    scheme.whole.Derives choice captures (core ++ more) →
      ∃ other others, scheme.whole.Derives other others core ∧ ¬ Prefers choice other

/-- The one way in which the core is read is what is preferred to reading on. -/
private theorem WellFormed.readsAlone_of_greedy {scheme : Scheme} (formed : scheme.WellFormed)
    {choice : List Bool} {captures : List (Option (List Char))} {core following : List Char}
    (greedy : scheme.Greedy choice captures core following) :
    scheme.ReadsAlone core following := by
  intro other others more rest split filled derivation
  refine ⟨choice, captures, greedy.derives, ?_⟩
  intro preferred
  have same : choice = other := by
    apply Prefers.antisymm ?_ preferred
    apply greedy.preferred other others (core ++ more) rest ?_ derivation
    rw [List.append_assoc, split]
  subst same
  -- The same groups cannot be read both to the end of the core and behind it.
  obtain ⟨longer, digits, later, rfl, ended, fullDerivation⟩ := derives_full derivation rest
  have reads := formed.reads_rest fullDerivation ended
  have coreEnded := (formed.fullRuns_iff greedy.derives).mp greedy.full
  have coreReads := formed.reads_rest greedy.derives coreEnded
  rw [← split] at coreReads
  have texts : core ++ more ++ digits ++ later = core ++ (more ++ (digits ++ later)) := by simp
  rw [texts] at reads
  have rests : later = more ++ (digits ++ later) :=
    congrArg Reading.rest (reads.unique readsRest_unique coreReads)
  have lengths := congrArg List.length rests
  simp only [List.length_append] at lengths
  have positive := List.length_pos_iff.mpr filled
  omega

/-- No preferred way to read ends before the end of a rendered version. -/
private theorem WellFormed.core_of_greedy {scheme : Scheme} (formed : scheme.WellFormed)
    {version : Version} {choice : List Bool} {captures : List (Option (List Char))}
    {core after following : List Char} (greedy : scheme.Greedy choice captures core after)
    (same : core ++ after = (version.render scheme).toList ++ following)
    (alone : scheme.ReadsAlone (version.render scheme).toList following) :
    core = (version.render scheme).toList := by
  have starts : core <+: (version.render scheme).toList ++ following := ⟨after, same⟩
  have rendered := version.toList_render formed
  rcases List.prefix_or_prefix_of_prefix starts (List.prefix_append _ _) with shorter | longer
  · obtain ⟨more, split⟩ := shorter
    by_cases empty : more = []
    · rw [← split, empty, List.append_nil]
    -- A shorter core would also be preferred in the rendered version alone, with `more` left.
    · have kept := scheme.whole.derives_kept version (version.cut scheme) 0
      rw [← rendered] at kept
      have preferred := greedy.preferred _ _ _ following same kept
      have afterEq : after = more ++ following := by
        rw [← split, List.append_assoc] at same
        exact List.append_cancel_left same
      have ended : startsWithDigit more = false := by
        have full := (formed.fullRuns_iff greedy.derives).mp greedy.full
        rw [afterEq] at full
        cases more with
        | nil => rfl
        | cons c more => exact full
      have settled := formed.captures_eq_kept greedy.derives preferred ended
        scheme.endsBefore_nil (by rw [split, rendered, List.append_nil])
      exact absurd settled.2 empty
  · obtain ⟨more, split⟩ := longer
    by_cases empty : more = []
    · rw [← split, empty, List.append_nil]
    · have followingEq : more ++ after = following := by
        rw [← split, List.append_assoc] at same
        exact List.append_cancel_left same
      have derivation := greedy.derives
      rw [← split] at derivation
      obtain ⟨other, others, otherDerivation, notPreferred⟩ :=
        alone choice captures more after followingEq empty derivation
      exact absurd (greedy.preferred other others _ following same otherDerivation) notPreferred

/-- A version that no other one starts before is where the first one is found. -/
private theorem FindsFirst.before_eq {scheme : Scheme} {text : String} {found : Occurrence}
    {choice : List Bool} {captures : List (Option (List Char))}
    (finds : scheme.FindsFirst text found choice captures) {before core after : String}
    (whole : before ++ core ++ after = text) (conforms : scheme.Conforms core)
    (first : ∀ front other back, front ++ other ++ back = text → scheme.Conforms other →
      before.utf8ByteSize ≤ front.utf8ByteSize) : found.before = before := by
  have earlier := finds.first before core after whole conforms
  have later := first found.before found.core found.after finds.here
    ⟨choice, captures, finds.greedy.derives⟩
  have starts : found.before.toList <+: text.toList := by
    rw [← finds.here, found.toList_text]
    exact List.prefix_append _ _
  have otherStarts : before.toList <+: text.toList := by
    rw [← whole, String.append_assoc, String.toList_append]
    exact List.prefix_append _ _
  rcases List.prefix_or_prefix_of_prefix starts otherStarts with shorter | longer
  · exact eq_of_prefix_of_utf8ByteSize_le shorter later
  · exact (eq_of_prefix_of_utf8ByteSize_le longer earlier).symm

theorem WellFormed.conforms_render {scheme : Scheme} (formed : scheme.WellFormed)
    (version : Version) : scheme.Conforms (version.render scheme) := by
  have kept := scheme.whole.derives_kept version (version.cut scheme) 0
  rw [← version.toList_render formed] at kept
  exact ⟨_, _, kept⟩

theorem WellFormed.find?_render_iff {scheme : Scheme} (formed : scheme.WellFormed)
    (version : Version) (before after : String) :
    scheme.find? (before ++ version.render scheme ++ after) =
        some { before, core := version.render scheme, after } ↔
      (∀ front core back, front ++ core ++ back = before ++ version.render scheme ++ after →
        scheme.Conforms core → before.utf8ByteSize ≤ front.utf8ByteSize) ∧
      scheme.ReadsAlone (version.render scheme).toList after.toList := by
  rw [formed.find?_eq_some_iff]
  constructor
  · intro finds
    obtain ⟨choice, captures, finds⟩ := finds
    exact ⟨finds.first, formed.readsAlone_of_greedy finds.greedy⟩
  · intro conditions
    obtain ⟨first, alone⟩ := conditions
    have conforms := formed.conforms_render version
    rcases formed.search?_cases (before ++ version.render scheme ++ after) with
      ⟨_, nowhere⟩ | ⟨found, choice, captures, _, finds⟩
    · exact absurd conforms (nowhere before _ after rfl)
    · have beforeEq := finds.before_eq rfl conforms first
      have whole := congrArg String.toList finds.here
      rw [found.toList_text, beforeEq, String.toList_append, String.toList_append,
        List.append_assoc] at whole
      have same := List.append_cancel_left whole
      have coreEq := formed.core_of_greedy finds.greedy same alone
      rw [coreEq] at same
      have foundEq : found = { before, core := version.render scheme, after } := by
        obtain ⟨_, _, _⟩ := found
        cases beforeEq
        cases String.toList_inj.mp coreEq
        cases String.toList_inj.mp (List.append_cancel_left same)
        rfl
      rw [← foundEq]
      exact ⟨choice, captures, finds⟩

end Scheme

/-! ### Reading back -/

def Outcome.located (scheme : Scheme) (outcome : Outcome) : Located :=
  { before := ""
    front := if outcome.front.getD "" = "" then none else some (outcome.front.getD "")
    core := outcome.version.render scheme
    back := if outcome.back.getD "" = "" then none else some (outcome.back.getD "")
    after := "" }

private theorem Outcome.literal_located (scheme : Scheme) (outcome : Outcome) :
    (outcome.located scheme).literal = outcome.render scheme := by
  unfold Located.literal Outcome.located
  simp only [getD_filled]
  rfl

/-- Nothing in a rendered outcome can be taken for anything else by a search that all
the rules lend their decorations to. -/
structure Outcome.Recognisable (scheme : Scheme) (rules : List Rule) (outcome : Outcome) :
    Prop where
  first : ∀ before core after, before ++ core ++ after = outcome.render scheme →
    scheme.Conforms core → (outcome.front.getD "").utf8ByteSize ≤ before.utf8ByteSize
  alone : scheme.ReadsAlone (outcome.version.render scheme).toList (outcome.back.getD "").toList
  front : ListedFirst (fun text => text.toList <:+ (outcome.front.getD "").toList)
    (rules.filterMap Rule.front) (outcome.front.getD "")
  back : ListedFirst (fun text => text.toList <+: (outcome.back.getD "").toList)
    (rules.filterMap Rule.back) (outcome.back.getD "")

theorem Scheme.WellFormed.locate_render_eq_iff {scheme : Scheme} (formed : scheme.WellFormed)
    {rules : List Rule} {outcome : Outcome} (decorated : outcome.DecoratedBy rules) :
    scheme.locate rules (outcome.render scheme) = .ok (outcome.located scheme) ↔
      outcome.Recognisable scheme rules := by
  have frontKnown := getD_known decorated.front
  have backKnown := getD_known decorated.back
  have search := formed.find?_render_iff outcome.version (outcome.front.getD "")
    (outcome.back.getD "")
  have front := @Located.chooseFront_append_iff _ "" _ frontKnown
  have back := @Located.chooseBack_append_iff _ _ "" backKnown
  rw [String.empty_append] at front
  rw [String.append_empty] at back
  constructor
  · intro locates
    cases searched : scheme.find? (outcome.render scheme) with
    | none =>
        rw [locate_of_find?_eq_none rules searched] at locates
        cases locates
    | some found =>
        rw [locate_of_find? rules searched] at locates
        have parts := Located.mk.inj (Except.ok.inj locates)
        obtain ⟨before, frontEq, core, backEq, after⟩ := parts
        have beforeEq := Located.chooseFront_joined (rules.filterMap Rule.front) found.before
        have afterEq := Located.chooseBack_joined (rules.filterMap Rule.back) found.after
        rw [before, frontEq, String.empty_append, getD_filled] at beforeEq
        rw [after, backEq, String.append_empty, getD_filled] at afterEq
        have here : found = {
            before := outcome.front.getD ""
            core := outcome.version.render scheme
            after := outcome.back.getD "" } := by
          obtain ⟨_, _, _⟩ := found
          cases beforeEq
          cases core
          cases afterEq
          rfl
        rw [here] at searched before frontEq backEq after
        obtain ⟨first, alone⟩ := search.mp searched
        exact ⟨first, alone, front.mp (Prod.ext before frontEq), back.mp (Prod.ext backEq after)⟩
  · intro recognisable
    have searched := search.mpr ⟨recognisable.first, recognisable.alone⟩
    rw [Outcome.render, locate_of_find? rules searched, front.mpr recognisable.front,
      back.mpr recognisable.back]
    rfl

private theorem Scheme.WellFormed.exists_locate_render {scheme : Scheme}
    (formed : scheme.WellFormed)
    (rules : List Rule) (outcome : Outcome) :
    ∃ located, scheme.locate rules (outcome.render scheme) = .ok located := by
  cases searched : scheme.find? (outcome.render scheme) with
  | some found => exact ⟨_, locate_of_find? rules searched⟩
  | none =>
      have nowhere := (formed.find?_eq_none_iff _).mp searched
      exact absurd ⟨_, _, _, rfl, formed.conforms_render outcome.version⟩ nowhere

/-- In the text that rules have written a version is always found. It is found as it was
written, from the first byte to the last, exactly when nothing in the text can be taken
for anything else. -/
theorem Outcome.reads_back_iff {definition : String} {scheme : Scheme}
    (compiled : Scheme.compile definition = .ok scheme) {rules : List Rule} {trigger : Trigger}
    {branch : String} {version : Version} {outcome : Outcome}
    (applied : version.applyRules scheme (matchingRules rules trigger branch) = .ok outcome) :
    (∃ located, scheme.locate rules (outcome.render scheme) = .ok located) ∧
    (scheme.locate rules (outcome.render scheme) = .ok (outcome.located scheme) ↔
      outcome.Recognisable scheme rules) ∧
    (outcome.located scheme).core = outcome.version.render scheme ∧
    (outcome.located scheme).literal = outcome.render scheme ∧
    (outcome.located scheme).start = 0 ∧
    (outcome.located scheme).stop = (outcome.render scheme).utf8ByteSize := by
  have formed := Scheme.wellFormed_of_compile compiled
  have known : ∀ rule ∈ matchingRules rules trigger branch, rule ∈ rules :=
    fun rule member => (List.mem_filter.mp member).1
  have literal := outcome.literal_located scheme
  refine ⟨formed.exists_locate_render rules outcome,
    formed.locate_render_eq_iff (.of_applyRules known applied), rfl, literal, rfl, ?_⟩
  rw [Located.stop, literal]
  exact Nat.zero_add _

def candidateRule : Rule :=
  { trigger := .commit, branch := none, bump := none, reset := none
    front := some "v", back := some "-rc" }

def revisionRule : Rule :=
  { trigger := .manual, branch := none, bump := none, reset := none
    front := none, back := some "-r" }

def candidate : Outcome :=
  { version := .ofPairs [("a", 1)], front := some "v", back := some "-rc" }

/-- The decoration of a candidate is listed before a shorter one that fits as well. -/
theorem Outcome.reads_back_listed_first :
    Scheme.compile "a" = .ok ⟨"a", .done⟩ ∧
    (Version.ofPairs [("a", 1)]).applyRules ⟨"a", .done⟩
      (matchingRules [candidateRule, revisionRule] .commit "main") = .ok candidate ∧
    candidate.Recognisable ⟨"a", .done⟩ [candidateRule, revisionRule] := by
  have compiled : Scheme.compile "a" = .ok ⟨"a", .done⟩ := by rfl
  have applied : (Version.ofPairs [("a", 1)]).applyRules ⟨"a", .done⟩
      (matchingRules [candidateRule, revisionRule] .commit "main") = .ok candidate := by rfl
  exact ⟨compiled, applied, (Outcome.reads_back_iff compiled applied).2.1.mp (by rfl)⟩

/-- If the shorter decoration is listed first, it is taken for a part of the longer one,
although it belongs to a rule that did not match. -/
theorem Outcome.not_reads_back_shadowed :
    Scheme.compile "a" = .ok ⟨"a", .done⟩ ∧
    Scheme.checkRules ⟨"a", .done⟩ [revisionRule, candidateRule] = .ok () ∧
    (Version.ofPairs [("a", 1)]).applyRules ⟨"a", .done⟩
      (matchingRules [revisionRule, candidateRule] .commit "main") = .ok candidate ∧
    ∃ located,
      Scheme.locate ⟨"a", .done⟩ [revisionRule, candidateRule]
        (candidate.render ⟨"a", .done⟩) = .ok located ∧
      located.literal ≠ candidate.render ⟨"a", .done⟩ ∧
      located.stop ≠ (candidate.render ⟨"a", .done⟩).utf8ByteSize := by
  refine ⟨by rfl, by rfl, by rfl,
    { before := "", front := some "v", core := "1", back := some "-r", after := "c" }, by rfl, ?_, ?_⟩
  · decide
  · decide

end Versioning
