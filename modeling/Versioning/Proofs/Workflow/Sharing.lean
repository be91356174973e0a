import Mathlib.Data.List.Dedup
import Versioning.Proofs.Workflow.Updating

/-!
Schemes that are shared.

A cache is never noticed but in what it saves. Its entries are the definitions that were
compiled, each with the scheme it has on its own, and they never leave their slots. So
every use of a cache answers what it would answer with a new one, and two uses share a
scheme exactly when they ask for the same definition.
-/

namespace Versioning

/-- A use of a cache: a definition is compiled, or a workflow is set up. -/
inductive CacheUse
  | compile (definition : String)
  | setUp (configuration : Configuration)

structure CacheAnswer where
  shared : SharedScheme
  workflow : Option Workflow

namespace CacheUse

def run (cache : SchemeCache) : CacheUse → Except Error CacheAnswer × SchemeCache
  | .compile definition =>
      (cache.compile definition).map (.map fun shared => { shared, workflow := none }) id
  | .setUp configuration =>
      (Workflow.openShared configuration cache).map
        (.map fun (workflow, shared) => { shared, workflow }) id

def definition : CacheUse → Except Error String
  | .compile definition => .ok definition
  | .setUp configuration => configuration.schemeDefinition

def compiled (use : CacheUse) : Except Error Scheme := do
  let definition ← use.definition
  Scheme.ofDefinition definition

def compiledDefinition? (use : CacheUse) : Option String :=
  match use.compiled, use.definition with
  | .ok _, .ok definition => some definition
  | _, _ => none

def finish (shared : SharedScheme) : CacheUse → Except Error CacheAnswer
  | .compile _ => .ok { shared, workflow := none }
  | .setUp configuration => do
      shared.scheme.checkRules configuration.rules
      return { shared, workflow := some { configuration, scheme := shared.scheme } }

end CacheUse

def SchemeCache.runAll (cache : SchemeCache) (uses : List CacheUse) : SchemeCache :=
  uses.foldl (fun cache use => (use.run cache).2) cache

/-- Answers that differ at most in the slots of their schemes. -/
structure CacheAnswer.Same (left right : CacheAnswer) : Prop where
  scheme : left.shared.scheme = right.shared.scheme
  workflow : left.workflow = right.workflow

/-! ### Entries -/

namespace SchemeCache

def definitions (cache : SchemeCache) : List String :=
  cache.entries.map Prod.fst

/-- No definition has two entries, and every entry has the scheme of its definition. -/
structure Sound (cache : SchemeCache) : Prop where
  distinct : cache.definitions.Nodup
  compiled : ∀ entry ∈ cache.entries, Scheme.ofDefinition entry.1 = .ok entry.2

private theorem sound_empty : Sound .empty :=
  ⟨List.nodup_nil, fun _ impossible => nomatch impossible⟩

private theorem find?_cases (cache : SchemeCache) (definition : String) :
    (cache.find? definition = none ∧ definition ∉ cache.definitions) ∨
      ∃ shared, cache.find? definition = some shared ∧
        cache.entries[shared.slot]? = some (definition, shared.scheme) := by
  cases found : cache.find? definition with
  | none =>
      left
      refine ⟨rfl, ?_⟩
      intro known
      obtain ⟨⟨_, scheme⟩, member, rfl⟩ := List.mem_map.mp known
      obtain ⟨slot, here⟩ := List.mem_iff_getElem?.mp member
      have unread := List.findSome?_eq_none_iff.mp found _
        (List.mk_mem_zipIdx_iff_getElem?.mpr here)
      simp at unread
  | some shared =>
      right
      refine ⟨shared, rfl, ?_⟩
      obtain ⟨⟨⟨known, scheme⟩, slot⟩, member, gives⟩ := List.exists_of_findSome?_eq_some found
      have here := List.mem_zipIdx_iff_getElem?.mp member
      simp only at gives
      split at gives
      · next same =>
          cases gives
          rw [← same]
          exact here
      · cases gives

/-- A definition that does not compile leaves the cache as it is. One that does is found
in a slot of its own, where it was already or where it is added behind all others. -/
theorem compile_cases {cache : SchemeCache} (sound : cache.Sound) (definition : String) :
    (∃ error, Scheme.ofDefinition definition = .error error ∧
      cache.compile definition = (.error error, cache)) ∨
    ∃ slot scheme later, Scheme.ofDefinition definition = .ok scheme ∧
      cache.compile definition = (.ok { slot, scheme }, later) ∧
      later.entries[slot]? = some (definition, scheme) ∧
      (later = cache ∨ (definition ∉ cache.definitions ∧
        later.entries = cache.entries ++ [(definition, scheme)])) := by
  unfold compile
  rcases cache.find?_cases definition with ⟨none, new⟩ | ⟨shared, found, here⟩
  · rw [none]
    cases compiled : Scheme.ofDefinition definition with
    | error error => exact .inl ⟨error, rfl, rfl⟩
    | ok scheme =>
        right
        refine ⟨cache.size, scheme, { entries := cache.entries ++ [(definition, scheme)] },
          rfl, rfl, ?_, .inr ⟨new, rfl⟩⟩
        simp [size]
  · have accepted := sound.compiled (definition, shared.scheme) (List.mem_of_getElem? here)
    rw [found]
    exact .inr ⟨shared.slot, shared.scheme, cache, accepted, rfl, here, .inl rfl⟩

/-- Entries of a sound cache are apart if their slots are, and keep their slots. -/
private theorem Sound.slot_eq_iff {cache : SchemeCache} (sound : cache.Sound) {left right : Nat}
    {leftEntry rightEntry : String × Scheme} (atLeft : cache.entries[left]? = some leftEntry)
    (atRight : cache.entries[right]? = some rightEntry) :
    left = right ↔ leftEntry.1 = rightEntry.1 := by
  constructor
  · intro same
    rw [same, atRight] at atLeft
    cases atLeft
    rfl
  · intro same
    have leftName : cache.definitions[left]? = some leftEntry.1 := by
      rw [definitions, List.getElem?_map, atLeft, Option.map_some]
    have rightName : cache.definitions[right]? = some leftEntry.1 := by
      rw [definitions, List.getElem?_map, atRight, Option.map_some, same]
    obtain ⟨inside, _⟩ := List.getElem?_eq_some_iff.mp leftName
    exact (List.getElem?_inj inside sound.distinct).mp (leftName.trans rightName.symm)

private theorem Sound.find?_of_entry {cache : SchemeCache} (sound : cache.Sound) {slot : Nat}
    {definition : String} {scheme : Scheme}
    (here : cache.entries[slot]? = some (definition, scheme)) :
    cache.find? definition = some { slot, scheme } := by
  rcases cache.find?_cases definition with ⟨_, new⟩ | ⟨shared, found, there⟩
  · exact absurd (List.mem_map_of_mem (List.mem_of_getElem? here)) new
  · have same := (sound.slot_eq_iff here there).mpr rfl
    subst same
    rw [here] at there
    cases there
    exact found

end SchemeCache

/-! ### One use -/

namespace CacheUse

open SchemeCache

private theorem run_of_definition_error {use : CacheUse} {error : Error} (cache : SchemeCache)
    (unknown : use.definition = .error error) : use.run cache = (.error error, cache) := by
  cases use with
  | compile definition => cases unknown
  | setUp configuration =>
      have refused : Workflow.openShared configuration cache = (.error error, cache) := by
        unfold Workflow.openShared
        rw [show configuration.schemeDefinition = .error error from unknown]
      rw [run, refused]
      rfl

/-- A use compiles its definition and goes on with the scheme, if there is one. -/
private theorem run_of_definition {use : CacheUse} {definition : String} (cache : SchemeCache)
    (known : use.definition = .ok definition) :
    use.run cache =
      ((cache.compile definition).1 >>= fun shared => use.finish shared,
        (cache.compile definition).2) := by
  cases use with
  | compile other =>
      cases known
      rw [run]
      rcases cache.compile definition with ⟨error | shared, later⟩
      · rfl
      · rfl
  | setUp configuration =>
      rw [run]
      unfold Workflow.openShared
      rw [show configuration.schemeDefinition = .ok definition from known]
      simp only
      rcases cache.compile definition with ⟨error | shared, later⟩
      · rfl
      · change _ = ((shared.scheme.checkRules configuration.rules >>= fun _ => _), later)
        simp only
        cases shared.scheme.checkRules configuration.rules with
        | error error => rfl
        | ok _ => rfl

/-- Either the scheme that is asked for does not compile, and the cache stays as it is,
or it is in the cache afterwards, which is the same as before or has one more entry. -/
theorem run_cases {cache : SchemeCache} (sound : cache.Sound) (use : CacheUse) :
    (∃ error, use.compiled = .error error ∧ use.run cache = (.error error, cache)) ∨
    ∃ definition slot scheme later, use.definition = .ok definition ∧
      use.compiled = .ok scheme ∧ use.run cache = (use.finish { slot, scheme }, later) ∧
      later.entries[slot]? = some (definition, scheme) ∧
      (later = cache ∨ (definition ∉ cache.definitions ∧
        later.entries = cache.entries ++ [(definition, scheme)])) := by
  unfold compiled
  cases asked : use.definition with
  | error error => exact .inl ⟨error, rfl, run_of_definition_error cache asked⟩
  | ok definition =>
      rw [run_of_definition cache asked]
      rcases compile_cases sound definition with
        ⟨error, refused, same⟩ | ⟨slot, scheme, later, accepted, compiles, here, grows⟩
      · rw [same]
        exact .inl ⟨error, refused, rfl⟩
      · rw [compiles]
        exact .inr ⟨definition, slot, scheme, later, rfl, accepted, rfl, here, grows⟩

private theorem run_grows {cache : SchemeCache} (sound : cache.Sound) (use : CacheUse) :
    (use.run cache).2.Sound ∧ cache.entries <+: (use.run cache).2.entries ∧
      ∀ definition, definition ∈ (use.run cache).2.definitions ↔
        definition ∈ cache.definitions ∨ use.compiledDefinition? = some definition := by
  unfold compiledDefinition?
  rcases run_cases sound use with
    ⟨error, refused, same⟩ | ⟨definition, slot, scheme, later, asked, compiles, runs, here, grows⟩
  · rw [same, refused]
    exact ⟨sound, List.prefix_refl _, by simp⟩
  · rw [runs, asked, compiles]
    simp only [Option.some.injEq]
    rcases grows with rfl | ⟨new, entries⟩
    · refine ⟨sound, List.prefix_refl _, ?_⟩
      intro other
      constructor
      · exact .inl
      · rintro (known | rfl)
        · exact known
        · exact List.mem_map_of_mem (List.mem_of_getElem? here)
    · have names : later.definitions = cache.definitions ++ [definition] := by
        rw [definitions, entries, List.map_append]
        rfl
      have accepted : Scheme.ofDefinition definition = .ok scheme := by
        unfold CacheUse.compiled at compiles
        rwa [asked] at compiles
      refine ⟨⟨?_, ?_⟩, ?_, ?_⟩
      · rw [names]
        exact List.nodup_append.mpr ⟨sound.distinct, List.nodup_singleton _, by
          intro known member other isNew same
          rw [List.mem_singleton] at isNew
          exact new (isNew ▸ same ▸ member)⟩
      · intro entry member
        rw [entries, List.mem_append, List.mem_singleton] at member
        rcases member with old | rfl
        · exact sound.compiled entry old
        · exact accepted
      · rw [entries]
        exact List.prefix_append _ _
      · intro other
        rw [names, List.mem_append, List.mem_singleton, eq_comm]

private theorem finish_agree (use : CacheUse) (left right : SharedScheme)
    (same : left.scheme = right.scheme) : Agree CacheAnswer.Same (use.finish left) (use.finish right) := by
  cases use with
  | compile definition => exact .done ⟨same, rfl⟩
  | setUp configuration =>
      simp only [finish, same]
      cases right.scheme.checkRules configuration.rules with
      | error error => exact .failed error
      | ok _ => exact .done ⟨same, rfl⟩

theorem run_agree {cache other : SchemeCache} (sound : cache.Sound) (otherSound : other.Sound)
    (use : CacheUse) : Agree CacheAnswer.Same (use.run cache).1 (use.run other).1 := by
  rcases run_cases sound use with
    ⟨error, refused, same⟩ | ⟨_, slot, scheme, later, _, compiles, runs, _⟩
  · rcases run_cases otherSound use with
      ⟨otherError, otherRefused, otherSame⟩ | ⟨_, _, _, _, _, compiles, _⟩
    · rw [refused] at otherRefused
      cases otherRefused
      rw [same, otherSame]
      exact .failed error
    · rw [refused] at compiles
      cases compiles
  · rcases run_cases otherSound use with
      ⟨error, refused, _⟩ | ⟨_, otherSlot, otherScheme, otherLater, _, otherCompiles, otherRuns, _⟩
    · rw [compiles] at refused
      cases refused
    · rw [compiles] at otherCompiles
      cases otherCompiles
      rw [runs, otherRuns]
      exact use.finish_agree { slot, scheme } { slot := otherSlot, scheme } rfl

private theorem shared_of_finish {use : CacheUse} {shared : SharedScheme} {answer : CacheAnswer}
    (done : use.finish shared = .ok answer) : answer.shared = shared := by
  cases use with
  | compile definition =>
      cases done
      rfl
  | setUp configuration =>
      obtain ⟨_, _, same⟩ := bind_eq_ok.mp done
      cases same
      rfl

private theorem entry_of_answer {cache : SchemeCache} (sound : cache.Sound) {use : CacheUse}
    {answer : CacheAnswer} (answered : (use.run cache).1 = .ok answer) :
    ∃ definition, use.definition = .ok definition ∧
      (use.run cache).2.entries[answer.shared.slot]? =
        some (definition, answer.shared.scheme) := by
  rcases run_cases sound use with
    ⟨error, _, same⟩ | ⟨definition, slot, scheme, later, asked, _, runs, here, _⟩
  · rw [same] at answered
    cases answered
  · rw [runs] at answered ⊢
    rw [shared_of_finish answered]
    exact ⟨definition, asked, here⟩

/-- Setting a workflow up succeeds or fails as its configuration is valid or not. -/
private theorem map_run_setUp {cache : SchemeCache} (sound : cache.Sound)
    (configuration : Configuration) :
    ((setUp configuration).run cache).1.map (fun _ => ()) = configuration.validate := by
  have valid : configuration.validate =
      ((setUp configuration).compiled >>= fun scheme =>
        scheme.checkRules configuration.rules) := by
    simp only [Configuration.validate, compiled, definition]
    cases configuration.schemeDefinition with
    | error error => rfl
    | ok definition => rfl
  rw [valid]
  rcases run_cases sound (setUp configuration) with
    ⟨error, refused, same⟩ | ⟨_, slot, scheme, later, _, compiles, runs, _⟩
  · rw [same, refused]
    rfl
  · rw [runs, compiles]
    change Except.map _ (scheme.checkRules configuration.rules >>= fun _ => _) =
      scheme.checkRules configuration.rules
    cases scheme.checkRules configuration.rules with
    | error error => rfl
    | ok _ => rfl

end CacheUse

/-! ### Rows of uses -/

namespace SchemeCache

private theorem runAll_append (cache : SchemeCache) (earlier later : List CacheUse) :
    cache.runAll (earlier ++ later) = (cache.runAll earlier).runAll later :=
  List.foldl_append

theorem Sound.runAll {cache : SchemeCache} (sound : cache.Sound) (uses : List CacheUse) :
    (cache.runAll uses).Sound ∧ cache.entries <+: (cache.runAll uses).entries ∧
      ∀ definition, definition ∈ (cache.runAll uses).definitions ↔
        definition ∈ cache.definitions ∨
          definition ∈ uses.filterMap CacheUse.compiledDefinition? := by
  induction uses generalizing cache with
  | nil => exact ⟨sound, List.prefix_refl _, by simp [SchemeCache.runAll]⟩
  | cons use uses ih =>
      obtain ⟨soundNext, grows, names⟩ := CacheUse.run_grows sound use
      obtain ⟨soundLater, growsLater, namesLater⟩ := ih soundNext
      refine ⟨soundLater, grows.trans growsLater, ?_⟩
      intro definition
      have head : definition ∈ (use :: uses).filterMap CacheUse.compiledDefinition? ↔
          use.compiledDefinition? = some definition ∨
            definition ∈ uses.filterMap CacheUse.compiledDefinition? := by
        simp [List.mem_filterMap]
      rw [head, ← or_assoc, ← names]
      exact namesLater definition

theorem sound_runAll (uses : List CacheUse) : (empty.runAll uses).Sound :=
  (sound_empty.runAll uses).1

theorem size_runAll (uses : List CacheUse) :
    (empty.runAll uses).size = (uses.filterMap CacheUse.compiledDefinition?).dedup.length := by
  obtain ⟨sound, _, names⟩ := sound_empty.runAll uses
  have same : (empty.runAll uses).definitions.Perm
      (uses.filterMap CacheUse.compiledDefinition?).dedup := by
    refine (List.perm_ext_iff_of_nodup sound.distinct (List.nodup_dedup _)).mpr ?_
    intro definition
    rw [names, List.mem_dedup]
    exact or_iff_right List.not_mem_nil
  rw [← same.length_eq, definitions, List.length_map, size]

end SchemeCache

/-- Answers of two uses share a scheme exactly when they are for the same definition. -/
theorem CacheUse.slot_eq_iff_definition_eq {cache : SchemeCache} (sound : cache.Sound)
    {first second : CacheUse} {between : List CacheUse} {left right : CacheAnswer}
    (firstAnswers : (first.run cache).1 = .ok left)
    (secondAnswers : (second.run (cache.runAll (first :: between))).1 = .ok right) :
    left.shared.slot = right.shared.slot ↔ first.definition = second.definition := by
  obtain ⟨definition, asked, here⟩ := entry_of_answer sound firstAnswers
  obtain ⟨soundNext, _, _⟩ := run_grows sound first
  obtain ⟨soundLater, growsLater, _⟩ := soundNext.runAll between
  obtain ⟨otherDefinition, otherAsked, there⟩ := entry_of_answer soundLater secondAnswers
  obtain ⟨soundLast, growsLast, _⟩ := run_grows soundLater second
  obtain ⟨_, entries⟩ := growsLater.trans growsLast
  obtain ⟨inside, _⟩ := List.getElem?_eq_some_iff.mp here
  rw [← List.getElem?_append_left inside, entries] at here
  rw [soundLast.slot_eq_iff here there, asked, otherAsked]
  simp

/-- Whatever a cache was used for, nobody can tell it from a new one. A use answers what
it would answer with a new cache, and setting a workflow up fails exactly as its
configuration does. Two answers share a scheme exactly when they are for the same
definition. A definition that does not compile leaves the cache as it is, one that does is
in the cache even if the rules do not fit it, and the size of the cache is the number of
definitions that did. -/
theorem cache_unnoticed (earlier : List CacheUse) :
    (∀ use : CacheUse, Agree CacheAnswer.Same
      (use.run (SchemeCache.empty.runAll earlier)).1 (use.run .empty).1) ∧
    (∀ configuration,
      ((CacheUse.setUp configuration).run (SchemeCache.empty.runAll earlier)).1.map
        (fun _ => ()) = configuration.validate) ∧
    (∀ (first : CacheUse) between (second : CacheUse) left right,
      (first.run (SchemeCache.empty.runAll earlier)).1 = .ok left →
      (second.run (SchemeCache.empty.runAll (earlier ++ first :: between))).1 = .ok right →
        (left.shared.slot = right.shared.slot ↔ first.definition = second.definition)) ∧
    (∀ (use : CacheUse) error, use.compiled = .error error →
      use.run (SchemeCache.empty.runAll earlier) =
        (.error error, SchemeCache.empty.runAll earlier)) ∧
    (∀ configuration definition scheme error,
      configuration.schemeDefinition = .ok definition →
      Scheme.ofDefinition definition = .ok scheme →
      scheme.checkRules configuration.rules = .error error →
        ((CacheUse.setUp configuration).run (SchemeCache.empty.runAll earlier)).1 =
            .error error ∧
          ∃ slot, ((CacheUse.setUp configuration).run (SchemeCache.empty.runAll earlier)).2.find?
            definition = some { slot, scheme }) ∧
    (SchemeCache.empty.runAll earlier).size =
      (earlier.filterMap CacheUse.compiledDefinition?).dedup.length := by
  have sound := SchemeCache.sound_runAll earlier
  refine ⟨?_, ?_, ?_, ?_, ?_, SchemeCache.size_runAll earlier⟩
  · intro use
    exact use.run_agree sound SchemeCache.sound_empty
  · intro configuration
    exact CacheUse.map_run_setUp sound configuration
  · intro first between second left right firstAnswers secondAnswers
    rw [SchemeCache.runAll_append] at secondAnswers
    exact CacheUse.slot_eq_iff_definition_eq sound firstAnswers secondAnswers
  · intro use error refused
    rcases CacheUse.run_cases sound use with ⟨known, same, runs⟩ | ⟨_, _, _, _, _, compiles, _⟩
    · rw [refused] at same
      cases same
      exact runs
    · rw [refused] at compiles
      cases compiles
  · intro configuration definition scheme error selected compiles misfit
    have compiled : (CacheUse.setUp configuration).compiled = .ok scheme :=
      bind_eq_ok.mpr ⟨definition, selected, compiles⟩
    obtain ⟨soundLater, _, _⟩ := CacheUse.run_grows sound (.setUp configuration)
    rcases CacheUse.run_cases sound (.setUp configuration) with
      ⟨_, refused, _⟩ | ⟨known, slot, other, later, asked, same, runs, here, _⟩
    · rw [compiled] at refused
      cases refused
    · rw [compiled] at same
      cases same
      change configuration.schemeDefinition = _ at asked
      rw [selected] at asked
      cases asked
      rw [runs] at soundLater ⊢
      refine ⟨?_, slot, soundLater.find?_of_entry here⟩
      change (scheme.checkRules configuration.rules >>= fun _ => _) = _
      rw [misfit]
      rfl

def misfitConfiguration : Configuration :=
  { Configuration.default with
    schemeName := "custom"
    definition := some "a.b"
    rules := [
      { trigger := .commit, branch := none, bump := some "c", reset := none
        front := none, back := none }] }

/-- The rules fail, but the scheme stays and is shared with those who ask for it next. -/
theorem cache_unnoticed_misfit :
    ((CacheUse.setUp misfitConfiguration).run
        (SchemeCache.empty.runAll [.compile "a["])).1 = .error (.unknownField "c" "a.b") ∧
      (SchemeCache.empty.runAll
        [.compile "a[", .setUp misfitConfiguration, .compile "a.b", .compile "a"]).size = 2 := by
  have misfit := (cache_unnoticed [.compile "a["]).2.2.2.2.1 misfitConfiguration "a.b"
    ⟨"a", .field "." "b" .done⟩ (.unknownField "c" "a.b") rfl rfl rfl
  have size := (cache_unnoticed
    [.compile "a[", .setUp misfitConfiguration, .compile "a.b", .compile "a"]).2.2.2.2.2
  exact ⟨misfit.1, size⟩

end Versioning
