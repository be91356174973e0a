import Versioning.Command.Arguments

/-!
What arguments set.

A flag without a letter is set by one argument, which spells its name after two dashes.
Nothing else sets it: such an argument cannot be the value of a parameter, and no other
argument names the flag. Reading either goes on or settles what is to be done, and only
a whole list of arguments that was read makes the command do anything.
-/

namespace Versioning

namespace Command

def Flag.name : Flag → String
  | .current => "current"
  | .dryRun => "dry-run"
  | .verbose => "verbose"
  | .help => "help"
  | .version => "version"

def Flag.argument (flag : Flag) : String :=
  "--" ++ flag.name

def Flag.Spelled (flag : Flag) : Prop :=
  ∀ letter, Name.ofShort? letter ≠ some (.flag flag)

/-- Whether the arguments read so far have set a flag. Some flags settle at once what is
to be done, and are never set. -/
def Given.has (given : Given) : Flag → Bool
  | .current => given.current
  | .dryRun => given.dryRun
  | .verbose => given.verbose
  | .help => false
  | .version => false

/-- Reading settles what is to be done, which is not to run anything, or goes on with a
result that has the property. -/
inductive Reads {α : Type} (property : α → Prop) : Except Invocation α → Prop
  | settled {invocation : Invocation} :
      (∀ configFile request, invocation ≠ .run configFile request) →
      Reads property (.error invocation)
  | goesOn {value : α} : property value → Reads property (.ok value)

private theorem Reads.bind {α β : Type} {property : α → Prop} {other : β → Prop}
    {first : Except Invocation α} {next : α → Except Invocation β} (reads : Reads property first)
    (later : ∀ value, property value → Reads other (next value)) :
    Reads other (first >>= next) := by
  cases reads with
  | settled settles => exact .settled settles
  | goesOn has => exact later _ has

private theorem Reads.wrongUsage {α : Type} {property : α → Prop} :
    Reads property (.error .wrongUsage) :=
  .settled fun _ _ impossible => by cases impossible

private theorem Reads.once {α : Type} {property : α → Prop} {before : Bool} {value : α}
    (has : property value) :
    Reads property (if before then .error .wrongUsage else .ok value) := by
  cases before with
  | true => exact .wrongUsage
  | false => exact .goesOn has

/-! ### Names -/

private theorem Flag.spelled_current : Flag.current.Spelled := by
  intro letter named
  unfold Name.ofShort? at named
  split at named <;> cases named

theorem Flag.spelled_dryRun : Flag.dryRun.Spelled := by
  intro letter named
  unfold Name.ofShort? at named
  split at named <;> cases named

private theorem Name.ofLong?_eq_flag_iff {text : String} {flag : Flag} :
    Name.ofLong? text = some (.flag flag) ↔ text = flag.name := by
  constructor
  · intro named
    unfold Name.ofLong? at named
    split at named <;> cases named <;> rfl
  · rintro rfl
    cases flag <;> rfl

theorem Flag.looksLikeOption_argument (flag : Flag) :
    Given.looksLikeOption flag.argument = true := by
  cases flag <;> rfl

/-! ### Reading -/

namespace Given

private theorem reads_setFlag (given : Given) (set flag : Flag) :
    Reads (fun later => later.has flag = (given.has flag || set == flag)) (given.setFlag set) := by
  cases set with
  | help => exact .settled fun _ _ impossible => by cases impossible
  | version => exact .settled fun _ _ impossible => by cases impossible
  | current => exact .once (by cases flag <;> simp [has])
  | dryRun => exact .once (by cases flag <;> simp [has])
  | verbose => exact .once (by cases flag <;> simp [has])

theorem reads_setParameter (given : Given) (parameter : Parameter) (value : String)
    (flag : Flag) :
    Reads (fun later => later.has flag = given.has flag)
      (given.setParameter parameter value) := by
  cases parameter with
  | config => exact .once (by cases flag <;> rfl)
  | branch => exact .once (by cases flag <;> rfl)
  | trigger =>
      simp only [setParameter]
      split
      next => exact .goesOn (by cases flag <;> rfl)
      next => exact .wrongUsage

variable {flag : Flag}

private theorem reads_readCluster (spelled : flag.Spelled) (given : Given) (letters : List Char) :
    Reads (fun result => result.1.has flag = given.has flag) (given.readCluster letters) := by
  induction letters generalizing given with
  | nil => exact .goesOn rfl
  | cons letter rest ih =>
      unfold readCluster
      split
      next => exact .wrongUsage
      next set named =>
        have other : (set == flag) = false := by
          rw [beq_eq_false_iff_ne]
          rintro rfl
          exact spelled letter named
        refine (given.reads_setFlag set flag).bind fun later sets => ?_
        rw [other, Bool.or_false] at sets
        rw [← sets]
        exact ih later
      next parameter named =>
        have same := fun value => given.reads_setParameter parameter value flag
        split
        next => exact .goesOn rfl
        next => exact (same _).bind fun _ sets => .goesOn sets
        next => exact (same _).bind fun _ sets => .goesOn sets

theorem ofList_eq_name_iff (text : List Char) (flag : Flag) :
    String.ofList text = flag.name ↔
      Name.ofLong? (String.ofList (text.takeWhile (· != '='))) = some (.flag flag) ∧
        text.dropWhile (· != '=') = [] := by
  rw [Name.ofLong?_eq_flag_iff]
  constructor
  · -- No name of a flag has an equals sign in it.
    intro spelled
    rw [← String.toList_inj, String.toList_ofList] at spelled
    rw [spelled]
    cases flag <;> decide
  · rintro ⟨named, empty⟩
    have whole : text.takeWhile (· != '=') ++ text.dropWhile (· != '=') = text :=
      List.takeWhile_append_dropWhile
    rw [empty, List.append_nil] at whole
    rwa [whole] at named

private theorem reads_readLong (given : Given) (text : List Char) (flag : Flag) :
    Reads (fun result => result.1.has flag = (given.has flag || String.ofList text == flag.name))
      (given.readLong text) := by
  have spelled := ofList_eq_name_iff text flag
  simp only [readLong]
  split
  next set named empty =>
    have same : (String.ofList text == flag.name) = (set == flag) := by
      rw [Bool.eq_iff_iff, beq_iff_eq, beq_iff_eq, spelled]
      simp [named, empty]
    rw [same]
    exact (given.reads_setFlag set flag).bind fun _ sets => .goesOn sets
  next parameter named empty =>
    have other : (String.ofList text == flag.name) = false := by
      rw [beq_eq_false_iff_ne, ne_eq, spelled]
      simp [named]
    exact .goesOn (by rw [other, Bool.or_false])
  next parameter _ value named _ =>
    have other : (String.ofList text == flag.name) = false := by
      rw [beq_eq_false_iff_ne, ne_eq, spelled]
      simp [named]
    refine (given.reads_setParameter parameter _ flag).bind fun later sets => .goesOn ?_
    rw [other, Bool.or_false]
    exact sets
  next => exact .wrongUsage

theorem reads_readOption (spelled : flag.Spelled) (given : Given) (text : List Char) :
    Reads (fun result =>
        result.1.has flag = (given.has flag || String.ofList text == flag.argument))
      (given.readOption text) := by
  unfold readOption
  split
  next text =>
    have same : (String.ofList ('-' :: '-' :: text) == flag.argument) =
        (String.ofList text == flag.name) := by
      rw [Bool.eq_iff_iff, beq_iff_eq, beq_iff_eq, ← String.toList_inj, ← String.toList_inj]
      simp [Flag.argument]
    rw [same]
    exact given.reads_readLong text flag
  next letter letters single =>
    have other : (String.ofList ('-' :: letter :: letters) == flag.argument) = false := by
      rw [beq_eq_false_iff_ne, ne_eq, ← String.toList_inj]
      intro same
      simp only [Flag.argument, String.toList_ofList, String.toList_append] at same
      obtain ⟨rfl, rfl⟩ := List.cons.inj (List.cons.inj same).2
      exact single rfl
    rw [other, Bool.or_false]
    exact given.reads_readCluster spelled (letter :: letters)
  next => exact .wrongUsage

/-- After all arguments are read, a flag without a letter is set if it was or if one of
the arguments is the one that gives it. -/
theorem reads_readAll (spelled : flag.Spelled) (given : Given) (waiting : Option Parameter)
    (arguments : List String) :
    Reads (fun later => later.has flag = (given.has flag || arguments.contains flag.argument))
      (given.readAll waiting arguments) := by
  induction arguments generalizing given waiting with
  | nil =>
      cases waiting with
      | none => exact .goesOn (by simp)
      | some parameter => exact .wrongUsage
  | cons argument arguments ih =>
      rw [List.contains_cons, BEq.comm, ← Bool.or_assoc]
      cases waiting with
      | none =>
          rw [readAll]
          split
          next closing =>
            split
            next last =>
              have other : (argument == flag.argument) = false := by
                rw [beq_iff_eq.mp closing]
                cases flag <;> decide
              rw [other, List.isEmpty_iff.mp last]
              exact .goesOn (by simp)
            next => exact .wrongUsage
          next =>
            refine (given.reads_readOption spelled argument.toList).bind fun result sets => ?_
            rw [String.ofList_toList] at sets
            rw [← sets]
            exact ih result.1 result.2
      | some parameter =>
          rw [readAll]
          split
          next => exact .wrongUsage
          next value =>
            -- A parameter does not take an option for its value, so no flag is lost this way.
            have other : (argument == flag.argument) = false := by
              rw [beq_eq_false_iff_ne]
              rintro rfl
              exact value flag.looksLikeOption_argument
            refine (given.reads_setParameter parameter argument flag).bind fun later sets => ?_
            rw [other, Bool.or_false, ← sets]
            exact ih later none

end Given

/-- A run is about the current version exactly if that is asked for, and is a dry one
exactly if that is asked for. -/
theorem request_of_ofArguments {arguments : List String} {configFile : Option String}
    {request : Request} (runs : Invocation.ofArguments arguments = .run configFile request) :
    (request = .current ∧ "--current" ∈ arguments) ∨
      ∃ trigger branch, "--current" ∉ arguments ∧
        request = .bump trigger branch (arguments.contains "--dry-run") := by
  have current := Given.reads_readAll Flag.spelled_current .nothing none arguments
  have dryRun := Given.reads_readAll Flag.spelled_dryRun .nothing none arguments
  unfold Invocation.ofArguments at runs
  cases read : Given.nothing.readAll none arguments with
  | error invocation =>
      rw [read] at runs current
      cases current with
      | settled settles => exact absurd runs (settles _ _)
  | ok given =>
      rw [read] at runs current dryRun
      cases current with
      | goesOn current =>
      cases dryRun with
      | goesOn dryRun =>
      have isCurrent : given.current = arguments.contains "--current" := current
      have isDry : given.dryRun = arguments.contains "--dry-run" := dryRun
      simp only [Given.invocation, isCurrent, isDry] at runs
      split at runs
      next asked =>
        cases runs
        exact .inl ⟨rfl, List.contains_iff_mem.mp asked⟩
      next bump =>
        split at runs
        next => cases runs
        next branch _ =>
          cases runs
          exact .inr ⟨_, branch, fun asked => bump (List.contains_iff_mem.mpr asked), rfl⟩

end Command

end Versioning
