import Versioning.Workflow

/-!
What people are told about a change.
-/

namespace Versioning

namespace Report

/-- One line per rule, with a star for a rule that answers to every branch. -/
def ruleLine (rule : Rule) : String :=
  let branch := rule.branch.getD "*"
  s!"  rule {rule.trigger.text} on {branch}"

def change (before after : String) (applied : List Rule) : String :=
  let reasons :=
    if applied.isEmpty then ["  No matching rules"] else applied.map ruleLine
  "\n".intercalate ([s!"  From: {before}", s!"  To:   {after}"] ++ reasons)

def plan (plan : Plan) (dryRun : Bool) : String :=
  let heading :=
    if dryRun then "Proposed Version Change (dry run):" else "Version Change:"
  let summary := change plan.current.literal plan.next plan.applied
  s!"\n{heading}\n{summary}\n"

def status (text : String) : String :=
  s!"→ {text}\n"

def success (text : String) : String :=
  s!"✓ {text}\n"

def failure (text : String) : String :=
  s!"ERROR: {text}\n"

end Report

end Versioning
