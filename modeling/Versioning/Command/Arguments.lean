import Versioning.Rule

/-!
The arguments of the command.

Arguments are read from left to right. A flag stands alone or in a cluster after
one dash; an option takes its value from the rest of its own argument, with or
without an equals sign, or from the next argument, which must not look like an
option. No flag or option is given twice, and no other arguments are allowed.
-/

namespace Versioning

namespace Command

inductive Request
  /-- Print the current version. -/
  | current
  /-- Bump the version, or only show how it would change. -/
  | bump (trigger : Trigger) (branch : String) (dryRun : Bool)
  deriving DecidableEq, Repr

inductive Invocation
  | help
  | version
  | wrongUsage
  | run (configFile : Option String) (request : Request)
  deriving DecidableEq, Repr

inductive Flag
  | current
  | dryRun
  | verbose
  | help
  | version
  deriving DecidableEq, Repr

inductive Parameter
  | config
  | trigger
  | branch
  deriving DecidableEq, Repr

inductive Name
  | flag (flag : Flag)
  | parameter (parameter : Parameter)
  deriving DecidableEq, Repr

def Name.ofLong? : String → Option Name
  | "config" => some (.parameter .config)
  | "trigger" => some (.parameter .trigger)
  | "branch" => some (.parameter .branch)
  | "current" => some (.flag .current)
  | "dry-run" => some (.flag .dryRun)
  | "verbose" => some (.flag .verbose)
  | "help" => some (.flag .help)
  | "version" => some (.flag .version)
  | _ => none

def Name.ofShort? : Char → Option Name
  | 'c' => some (.parameter .config)
  | 't' => some (.parameter .trigger)
  | 'b' => some (.parameter .branch)
  | 'v' => some (.flag .verbose)
  | 'h' => some (.flag .help)
  | 'V' => some (.flag .version)
  | _ => none

structure Given where
  config : Option String
  trigger : Option Trigger
  branch : Option String
  current : Bool
  dryRun : Bool
  verbose : Bool
  deriving DecidableEq, Repr

def Given.nothing : Given :=
  { config := none, trigger := none, branch := none,
    current := false, dryRun := false, verbose := false }

/-- The arguments read so far, unless they already settle what is to be done. -/
abbrev Collected := Except Invocation Given

namespace Given

def setFlag (given : Given) : Flag → Collected
  | .help => .error .help
  | .version => .error .version
  | .current =>
      if given.current then .error .wrongUsage else .ok { given with current := true }
  | .dryRun =>
      if given.dryRun then .error .wrongUsage else .ok { given with dryRun := true }
  | .verbose =>
      if given.verbose then .error .wrongUsage else .ok { given with verbose := true }

def setParameter (given : Given) (parameter : Parameter) (value : String) : Collected :=
  match parameter with
  | .config =>
      if given.config.isSome then .error .wrongUsage
      else .ok { given with config := some value }
  | .branch =>
      if given.branch.isSome then .error .wrongUsage
      else .ok { given with branch := some value }
  | .trigger =>
      match given.trigger, Trigger.ofText? value with
      | none, some trigger => .ok { given with trigger := some trigger }
      | _, _ => .error .wrongUsage

/-- Reads the letters after a single dash. A parameter at the end leaves its
value to the next argument. -/
def readCluster (given : Given) : List Char → Except Invocation (Given × Option Parameter)
  | [] => .ok (given, none)
  | letter :: rest =>
      match Name.ofShort? letter with
      | none => .error .wrongUsage
      | some (.flag flag) => do
          let given ← given.setFlag flag
          given.readCluster rest
      | some (.parameter parameter) =>
          match rest with
          | [] => .ok (given, some parameter)
          | '=' :: value => do
              return (← given.setParameter parameter (String.ofList value), none)
          | value => do
              return (← given.setParameter parameter (String.ofList value), none)

def readLong (given : Given) (text : List Char) :
    Except Invocation (Given × Option Parameter) :=
  let name := String.ofList (text.takeWhile (· != '='))
  match Name.ofLong? name, text.dropWhile (· != '=') with
  | some (.flag flag), [] => do
      return (← given.setFlag flag, none)
  | some (.parameter parameter), [] => .ok (given, some parameter)
  | some (.parameter parameter), _ :: value => do
      return (← given.setParameter parameter (String.ofList value), none)
  | _, _ => .error .wrongUsage

/-- Whether an argument cannot be the value of the parameter before it. A single
dash can. -/
def looksLikeOption (argument : String) : Bool :=
  argument.toList.head? == some '-' && argument != "-"

def readOption (given : Given) : List Char → Except Invocation (Given × Option Parameter)
  | '-' :: '-' :: text => given.readLong text
  | '-' :: letter :: letters => given.readCluster (letter :: letters)
  | _ => .error .wrongUsage

/-- Reads all arguments. Two dashes on their own end the options, and nothing
may follow them. The first argument of the pair tells whether a parameter waits
for its value. -/
def readAll (given : Given) : Option Parameter → List String → Collected
  | none, [] => .ok given
  | some _, [] => .error .wrongUsage
  | some parameter, argument :: arguments =>
      if looksLikeOption argument then
        .error .wrongUsage
      else do
        let given ← given.setParameter parameter argument
        given.readAll none arguments
  | none, argument :: arguments =>
      if argument == "--" then
        if arguments.isEmpty then .ok given else .error .wrongUsage
      else do
        let (given, waiting) ← given.readOption argument.toList
        given.readAll waiting arguments

def invocation (given : Given) : Invocation :=
  -- The current version is shown for any branch and for none.
  if given.current then
    .run given.config .current
  else
    match given.branch with
    | none => .wrongUsage
    | some branch =>
        .run given.config (.bump (given.trigger.getD .commit) branch given.dryRun)

end Given

def Invocation.ofArguments (arguments : List String) : Invocation :=
  match Given.nothing.readAll none arguments with
  | .ok given => given.invocation
  | .error invocation => invocation

def verbose (arguments : List String) : Bool :=
  match Given.nothing.readAll none arguments with
  | .ok given => given.verbose
  | .error _ => false

def helpText : String :=
  "\n".intercalate
    [ "Bump version numbers in files according to a version scheme and rules",
      "",
      "Usage: bumper [OPTIONS]",
      "",
      "Options:",
      "  -c, --config <CONFIG>    Custom configuration file path",
      "  -t, --trigger <TRIGGER>  Event that triggered the bump: commit, manual, pull-request or comment [default: commit]",
      "  -b, --branch <BRANCH>    Branch the trigger happened on",
      "      --current            Print the current version and exit",
      "      --dry-run            Preview the new version without writing files",
      "  -v, --verbose            Enable debug logging",
      "  -h, --help               Print help",
      "  -V, --version            Print version",
      "" ]

def versionText : String :=
  "bumper 0.1.0\n"

end Command

end Versioning
