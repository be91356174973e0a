import Versioning.Proofs.Text.Line
import Versioning.Store.Target

/-!
Selecting and replacing what a target stands for.

A target stands for a whole text or for one line of it, and either way what was put
there is selected afterwards.
-/

namespace Versioning

namespace Target

def select (target : Target) (text : String) : String :=
  match target.line with
  | none => text
  | some number => Line.select text (some number)

def replace (target : Target) (text new : String) : String :=
  match target.line with
  | none => new
  | some number => Line.replace text (some number) new

def CanReplace (target : Target) (text new : String) : Prop :=
  ∀ number, target.line = some number →
    Line.CanReplace (Line.select text (some number)).toList new.toList

theorem replace_select (target : Target) (text : String) :
    target.replace text (target.select text) = text := by
  unfold select replace
  cases target.line with
  | none => rfl
  | some number => exact Line.replace_select text (some number)

def above (target : Target) (text : String) : String :=
  match target.line with
  | none => ""
  | some number => Line.above text (some number)

def below (target : Target) (text : String) : String :=
  match target.line with
  | none => ""
  | some number => Line.below text (some number)

theorem replace_eq_joined (target : Target) (text new : String) :
    target.replace text new = target.above text ++ new ++ target.below text := by
  unfold replace above below
  cases target.line with
  | none => rw [String.empty_append, String.append_empty]
  | some number => exact Line.replace_eq_joined text (some number) new

theorem joined_select (target : Target) (text : String) :
    target.above text ++ target.select text ++ target.below text = text := by
  rw [← replace_eq_joined, replace_select]

/-- What the target selects starts at this byte of the text: where its line starts, or at
the very start if it is not limited to a line. -/
def StartsAt (target : Target) (text : String) (offset : Nat) : Prop :=
  match target.line with
  | none => offset = 0
  | some number => Line.StartsAt text (some number) offset

theorem startsAt_iff {target : Target} {text : String} {offset : Nat} :
    target.StartsAt text offset ↔ offset = (target.above text).utf8ByteSize := by
  unfold StartsAt above
  cases target.line with
  | none => rfl
  | some number => exact Line.startsAt_iff

theorem select_replace {target : Target} {text new : String}
    (can : target.CanReplace text new) : target.select (target.replace text new) = new := by
  unfold select replace
  cases line : target.line with
  | none => rfl
  | some number => exact Line.select_replace (can number line)

theorem replace_replace {target : Target} {text new : String} (other : String)
    (can : target.CanReplace text new) :
    target.replace (target.replace text new) other = target.replace text other := by
  unfold replace
  cases line : target.line with
  | none => rfl
  | some number => exact Line.replace_replace other (can number line)

/-! ### Two targets in one text -/

/-- The place of the line that a target selects, none if it selects the whole text. -/
def place? (target : Target) (text : String) : Option Nat :=
  target.line.map fun number => Line.place (Line.ofText text.toList).length (some number)

def SelectApart (text : String) (first second : Target) : Prop :=
  ∃ here there, first.place? text = some here ∧ second.place? text = some there ∧ here ≠ there

theorem SelectApart.symm {text : String} {first second : Target}
    (apart : SelectApart text first second) : SelectApart text second first := by
  obtain ⟨here, there, firstHere, secondThere, different⟩ := apart
  exact ⟨there, here, secondThere, firstHere, different.symm⟩

theorem SelectApart.lines {text : String} {first second : Target}
    (apart : SelectApart text first second) :
    ∃ number other, first.line = some number ∧ second.line = some other ∧
      Line.place (Line.ofText text.toList).length (some number) ≠
        Line.place (Line.ofText text.toList).length (some other) := by
  obtain ⟨here, there, firstHere, secondThere, different⟩ := apart
  obtain ⟨number, line, rfl⟩ := Option.map_eq_some_iff.mp firstHere
  obtain ⟨other, otherLine, rfl⟩ := Option.map_eq_some_iff.mp secondThere
  exact ⟨number, other, line, otherLine, different⟩

theorem select_replace_of_apart {text new : String} {first second : Target}
    (apart : SelectApart text first second) (can : first.CanReplace text new) :
    second.select (first.replace text new) = second.select text := by
  obtain ⟨number, other, line, otherLine, different⟩ := apart.lines
  unfold select replace
  rw [line, otherLine]
  exact Line.select_replace_of_place_ne (can number line) different

theorem replace_replace_comm {text new otherNew : String} {first second : Target}
    (apart : SelectApart text first second) (can : first.CanReplace text new)
    (otherCan : second.CanReplace text otherNew) :
    second.replace (first.replace text new) otherNew =
      first.replace (second.replace text otherNew) new := by
  obtain ⟨number, other, line, otherLine, different⟩ := apart.lines
  unfold replace
  rw [line, otherLine]
  exact Line.replace_replace_comm (can number line) (otherCan other otherLine) different

/-- Replacing one line leaves every line in its place. -/
theorem place?_replace {text new : String} {first : Target} (filled : text ≠ "")
    (limited : first.line ≠ none) (can : first.CanReplace text new) (second : Target) :
    second.place? (first.replace text new) = second.place? text := by
  obtain ⟨number, line⟩ := Option.ne_none_iff_exists'.mp limited
  unfold place? replace
  rw [line]
  simp only [Line.length_ofText_replace filled (can number line)]

end Target

end Versioning
