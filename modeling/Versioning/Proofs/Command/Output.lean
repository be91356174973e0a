import Versioning.Command.Run

/-!
The lines that the command prints.
-/

namespace Versioning

def printed (lines : List String) : String :=
  String.join (lines.map (· ++ "\n"))

theorem printed_append (front back : List String) :
    printed (front ++ back) = printed front ++ printed back := by
  rw [printed, List.map_append, String.join_append]
  rfl

private theorem printed_singleton (line : String) : printed [line] = line ++ "\n" := by
  simp [printed]

private theorem intercalate_eq_printed {lines : List String} (some : lines ≠ []) :
    "\n".intercalate lines ++ "\n" = printed lines := by
  induction lines with
  | nil => exact absurd rfl some
  | cons line lines ih =>
      by_cases last : lines = []
      · simp [last, printed]
      · rw [String.intercalate_cons_of_ne_nil last, String.append_assoc, ih last,
          ← printed_singleton, ← printed_append]
        rfl

namespace Report

def ruleLines (applied : List Rule) : List String :=
  if applied.isEmpty then ["  No matching rules"]
  else applied.map fun rule => "  rule " ++ rule.trigger.text ++ " on " ++ rule.branch.getD "*"

def changeLines (before after : String) (applied : List Rule) : List String :=
  ["  From: " ++ before, "  To:   " ++ after] ++ ruleLines applied

theorem printed_changeLines (before after : String) (applied : List Rule) :
    printed (changeLines before after applied) = change before after applied ++ "\n" := by
  rw [← intercalate_eq_printed (by simp [changeLines])]
  rfl

theorem plan_eq_printed (plan : Plan) (dryRun : Bool) :
    Report.plan plan dryRun =
      printed (["", if dryRun then "Proposed Version Change (dry run):" else "Version Change:"] ++
        changeLines plan.current.literal plan.next plan.applied) := by
  rw [printed_append, printed_changeLines, ← String.toList_inj]
  simp [Report.plan, printed, toString]

theorem status_eq_printed (text : String) : status text = printed ["→ " ++ text] := by
  rw [printed_singleton]
  rfl

theorem success_eq_printed (text : String) : success text = printed ["✓ " ++ text] := by
  rw [printed_singleton]
  rfl

end Report

namespace Command

theorem writtenReport_eq_printed (paths : List String) (next : String) :
    writtenReport paths next =
      printed (paths.map ("✓ Updated " ++ ·) ++ ["✓ Bumped version to " ++ next]) := by
  rw [printed_append, writtenReport, Report.success_eq_printed]
  congr 1
  · induction paths with
    | nil => rfl
    | cons path paths ih =>
        rw [List.map_cons, List.map_cons, String.join_cons, ih, Report.success_eq_printed,
          ← printed_append]
        rfl

end Command

end Versioning
