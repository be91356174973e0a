import Versioning.Command.Arguments
import Versioning.Configuration.File
import Versioning.Report

/-!
One run of the command: its effect on a disk and what it prints.

Wrong usage ends with code two and a failure with code one. Nothing is written
before the plan is made and shown. What is logged on the way goes to a listener and is
no part of the response.
-/

namespace Versioning

namespace Command

/-- How a run ends: its exit code, what it prints, and the line about its failure. On the
terminal that line comes after the lines that were logged. -/
structure Response where
  code : Nat
  output : String
  errors : String
  deriving DecidableEq, Repr

def Response.success (output : String) : Response :=
  { code := 0, output, errors := "" }

def Response.failure (output reason : String) : Response :=
  { code := 1, output, errors := Report.failure reason }

/-- How arguments that make no sense are answered. What the reader of the arguments says
about them is left out. -/
def usageError : Response :=
  { code := 2, output := "", errors := "" }

/-- Relative paths start from the directory of the configuration file, if its
path names one. -/
def rootDirectory (configFile : Option String) : Option String :=
  (configFile.bind Path.parent?).filter (! ·.isEmpty)

def writtenReport (paths : List String) (next : String) : String :=
  String.join (paths.map fun path => Report.success s!"Updated {path}") ++
    Report.success s!"Bumped version to {next}"

variable {m : Type → Type} [Monad m]

def runCurrent (workflow : Workflow) (store : TextStore m)
    (note : Notice → m Unit := silent) : m Response := do
  match ← (workflow.current store note).run with
  | .error error => return .failure "" error.report
  | .ok located => return .success (located.literal ++ "\n")

def runBump (workflow : Workflow) (store : TextStore m) (trigger : Trigger)
    (branch : String) (dryRun : Bool) (note : Notice → m Unit := silent) : m Response := do
  match ← (workflow.plan store trigger branch note).run with
  | .error error => return .failure "" error.report
  | .ok plan =>
      let summary := Report.plan plan dryRun
      if dryRun then
        return .success (summary ++ Report.status "Dry run: no files were written")
      else if plan.unchanged then
        return .success (summary ++ Report.status s!"Version {plan.next} unchanged")
      else
        match ← (workflow.apply store plan note).run with
        | .error error => return .failure summary error.report
        | .ok paths => return .success (summary ++ writtenReport paths plan.next)

def runRequest (workflow : Workflow) (store : TextStore m) (request : Request)
    (note : Notice → m Unit := silent) : m Response :=
  match request with
  | .current => runCurrent workflow store note
  | .bump trigger branch dryRun => runBump workflow store trigger branch dryRun note

def loadFailure (configFile : Option String) (error : Error) : String :=
  match configFile with
  | some path => s!"Error loading config '{path}': {error.report}"
  | none => error.report

def runConfigured (disk : Disk m) (userDirectory requested : Option String)
    (request : Request) (note : Notice → m Unit := silent) : m Response := do
  let configFile ← Configuration.findFile disk userDirectory requested
  match ← (Configuration.load disk configFile note).run with
  | .error error => return .failure "" (loadFailure configFile error)
  | .ok configuration =>
      (Workflow.setupLog configuration).forM note
      match Workflow.create configuration with
      | .error error => return .failure "" error.report
      | .ok workflow =>
          runRequest workflow (disk.store (rootDirectory configFile) note) request note

def run (disk : Disk m) (userDirectory : Option String) (arguments : List String)
    (note : Notice → m Unit := silent) : m Response :=
  match Invocation.ofArguments arguments with
  | .help => return .success helpText
  | .version => return .success versionText
  | .wrongUsage => return usageError
  | .run requested request => runConfigured disk userDirectory requested request note

end Command

end Versioning
