import Versioning.Text.Line

/-!
Selecting and replacing lines.

Cutting a text into lines loses nothing, and rows of lines that could come from a
text are cut the way they are put together. So replacing the selected line by a
text that can stand on a line changes that line alone: it is selected afterwards,
and replacing it once more leaves no trace of the first replacement.
-/

namespace Versioning

namespace Line

/-! ### Pieces -/

private theorem cut_cons (c : Char) (text : List Char) :
    cut (c :: text) =
      if c = '\n' then [c] :: cut text
      else
        match cut text with
        | piece :: rest => (c :: piece) :: rest
        | [] => [[c]] :=
  rfl

theorem flatten_cut (text : List Char) : (cut text).flatten = text := by
  induction text with
  | nil => rfl
  | cons c text ih =>
      rw [cut_cons]
      split
      · rw [List.flatten_cons, ih, List.singleton_append]
      · split
        · next piece rest pieces =>
            rw [pieces] at ih
            rw [← ih, List.flatten_cons, List.flatten_cons, List.cons_append]
        · next pieces =>
            rw [pieces] at ih
            rw [← ih]
            rfl

theorem cut_append_feed {body : List Char} (noFeed : '\n' ∉ body) (later : List Char) :
    cut (body ++ '\n' :: later) = (body ++ ['\n']) :: cut later := by
  induction body with
  | nil => rfl
  | cons c body ih =>
      rw [List.mem_cons, not_or] at noFeed
      have other : ¬ c = '\n' := fun same => noFeed.1 same.symm
      rw [List.cons_append, cut_cons, if_neg other, ih noFeed.2]
      rfl

private theorem cut_of_not_mem {body : List Char} (noFeed : '\n' ∉ body) (filled : body ≠ []) :
    cut body = [body] := by
  induction body with
  | nil => exact absurd rfl filled
  | cons c body ih =>
      rw [List.mem_cons, not_or] at noFeed
      have other : ¬ c = '\n' := fun same => noFeed.1 same.symm
      rw [cut_cons, if_neg other]
      cases body with
      | nil => rfl
      | cons d body => rw [ih noFeed.2 (List.cons_ne_nil d body)]

private theorem ofPiece_return (body : List Char) :
    ofPiece (body ++ ['\r', '\n']) = { body, terminator := ['\r', '\n'] } := by
  have ends : ['\r', '\n'].isSuffixOf (body ++ ['\r', '\n']) = true :=
    List.isSuffixOf_iff_suffix.mpr (List.suffix_append body _)
  have shorter : (body ++ ['\r', '\n']).dropLast.dropLast = body := by
    have one : body ++ ['\r', '\n'] = body ++ ['\r'] ++ ['\n'] := by simp
    rw [one, List.dropLast_concat, List.dropLast_concat]
  rw [ofPiece, if_pos ends, shorter]

private theorem ofPiece_feed {body : List Char} (noReturn : body.getLast? ≠ some '\r') :
    ofPiece (body ++ ['\n']) = { body, terminator := ['\n'] } := by
  have noEnd : ¬ ['\r', '\n'].isSuffixOf (body ++ ['\n']) = true := by
    intro ends
    obtain ⟨before, same⟩ := List.isSuffixOf_iff_suffix.mp ends
    have one : before ++ ['\r'] ++ ['\n'] = body ++ ['\n'] := by simpa using same
    have bodyEq := List.append_cancel_right one
    exact noReturn (by rw [← bodyEq, List.getLast?_concat])
  have ends : ['\n'].isSuffixOf (body ++ ['\n']) = true :=
    List.isSuffixOf_iff_suffix.mpr (List.suffix_append body _)
  rw [ofPiece, if_neg noEnd, if_pos ends, List.dropLast_concat]

private theorem ofPiece_of_not_mem {body : List Char} (noFeed : '\n' ∉ body) :
    ofPiece body = { body, terminator := [] } := by
  have noEnd (ending : List Char) (feed : '\n' ∈ ending) :
      ¬ ending.isSuffixOf body = true := by
    intro ends
    exact noFeed ((List.isSuffixOf_iff_suffix.mp ends).subset feed)
  rw [ofPiece, if_neg (noEnd _ (by simp)), if_neg (noEnd _ (by simp))]

/-- A text without a line feed is one line. -/
private theorem ofText_of_not_mem {body : List Char} (noFeed : '\n' ∉ body) (filled : body ≠ []) :
    ofText body = [{ body, terminator := [] }] := by
  rw [ofText, cut_of_not_mem noFeed filled, List.map_singleton, ofPiece_of_not_mem noFeed]

/-! ### Rows of lines -/

/-- Lines that are cut from some text. Only the last one may lack a terminator,
and it is not empty then; and a carriage return before a line feed belongs to the
terminator. -/
inductive AreLines : List Line → Prop
  | none : AreLines []
  | last {body : List Char} : '\n' ∉ body → body ≠ [] →
      AreLines [{ body, terminator := [] }]
  | feed {body : List Char} {lines : List Line} : '\n' ∉ body →
      body.getLast? ≠ some '\r' → AreLines lines →
        AreLines ({ body, terminator := ['\n'] } :: lines)
  | returned {body : List Char} {lines : List Line} : '\n' ∉ body → AreLines lines →
      AreLines ({ body, terminator := ['\r', '\n'] } :: lines)

theorem areLines_ofText (text : List Char) : AreLines (ofText text) := by
  by_cases feed : '\n' ∈ text
  · obtain ⟨body, later, rfl, noFeed⟩ := List.eq_append_cons_of_mem feed
    have lines := areLines_ofText later
    rw [ofText, cut_append_feed noFeed, List.map_cons]
    by_cases returned : body.getLast? = some '\r'
    · obtain ⟨shorter, rfl⟩ := List.getLast?_eq_some_iff.mp returned
      rw [List.append_assoc]
      rw [show ['\r'] ++ ['\n'] = ['\r', '\n'] from rfl, ofPiece_return]
      exact .returned (fun present => noFeed (List.mem_append_left _ present)) lines
    · rw [ofPiece_feed returned]
      exact .feed noFeed returned lines
  · by_cases filled : text = []
    · subst filled
      exact .none
    · rw [ofText_of_not_mem feed filled]
      exact .last feed filled
termination_by text.length
decreasing_by
  subst_vars
  simp only [List.length_append, List.length_cons]
  omega

theorem AreLines.ofText_flatMap {lines : List Line} (areLines : AreLines lines) :
    ofText (lines.flatMap Line.text) = lines := by
  induction areLines with
  | none => rfl
  | @last body noFeed filled =>
      have whole : List.flatMap Line.text [{ body, terminator := [] }] = body := by
        simp [Line.text]
      rw [whole, ofText_of_not_mem noFeed filled]
  | @feed body lines noFeed noReturn _ ih =>
      have whole : List.flatMap Line.text ({ body, terminator := ['\n'] } :: lines) =
          body ++ '\n' :: lines.flatMap Line.text := by
        simp [Line.text]
      rw [whole, ofText, cut_append_feed noFeed, List.map_cons, ofPiece_feed noReturn]
      exact congrArg _ ih
  | @returned body lines noFeed _ ih =>
      have whole : List.flatMap Line.text ({ body, terminator := ['\r', '\n'] } :: lines) =
          (body ++ ['\r']) ++ '\n' :: lines.flatMap Line.text := by
        simp [Line.text]
      have noFeeds : '\n' ∉ body ++ ['\r'] := by
        intro present
        rcases List.mem_append.mp present with inBody | atEnd
        · exact noFeed inBody
        · simp at atEnd
      rw [whole, ofText, cut_append_feed noFeeds, List.map_cons, List.append_assoc]
      rw [show ['\r'] ++ ['\n'] = ['\r', '\n'] from rfl, ofPiece_return]
      exact congrArg _ ih

private theorem text_ofPiece (piece : List Char) : (ofPiece piece).text = piece := by
  unfold ofPiece
  split
  · next ends =>
      obtain ⟨body, rfl⟩ := List.isSuffixOf_iff_suffix.mp ends
      have one : body ++ ['\r', '\n'] = body ++ ['\r'] ++ ['\n'] := by simp
      rw [one, List.dropLast_concat, List.dropLast_concat, Line.text, List.append_assoc]
      rfl
  · split
    · next ends =>
        obtain ⟨body, rfl⟩ := List.isSuffixOf_iff_suffix.mp ends
        rw [List.dropLast_concat, Line.text]
    · rw [Line.text, List.append_nil]

theorem flatMap_text_ofText (text : List Char) : (ofText text).flatMap Line.text = text := by
  have same : (cut text).flatMap (Line.text ∘ ofPiece) = (cut text).flatMap id := by
    congr 1
    funext piece
    exact text_ofPiece piece
  rw [ofText, List.flatMap_map]
  exact same.trans (List.flatMap_id.trans (flatten_cut text))

private theorem AreLines.feed_not_mem {lines : List Line} (areLines : AreLines lines) {line : Line}
    (member : line ∈ lines) : '\n' ∉ line.body := by
  induction areLines with
  | none => cases member
  | last noFeed _ =>
      cases List.mem_singleton.mp member
      exact noFeed
  | feed noFeed _ _ ih =>
      rcases List.mem_cons.mp member with rfl | later
      · exact noFeed
      · exact ih later
  | returned noFeed _ ih =>
      rcases List.mem_cons.mp member with rfl | later
      · exact noFeed
      · exact ih later

/-! ### Replacing a line -/

/-- What can stand on a line instead of `old`. A carriage return at the end would
be taken for a part of the terminator, unless `old` ends with one that is not. -/
def CanReplace (old new : List Char) : Prop :=
  new ≠ [] ∧ '\n' ∉ new ∧ (new.getLast? = some '\r' → old.getLast? = some '\r')

def withBody (body : List Char) (line : Line) : Line :=
  { line with body }

private theorem AreLines.modify {lines : List Line} (areLines : AreLines lines) {index : Nat}
    {line : Line} {new : List Char} (selected : lines[index]? = some line)
    (can : CanReplace line.body new) : AreLines (lines.modify index (withBody new)) := by
  obtain ⟨filled, noFeed, returns⟩ := can
  induction areLines generalizing index with
  | none => cases selected
  | last _ _ =>
      cases index with
      | zero => exact .last noFeed filled
      | succ index => cases selected
  | feed noOldFeed noReturn others ih =>
      cases index with
      | zero =>
          have same := Option.some.inj selected
          subst same
          exact .feed noFeed (fun atEnd => noReturn (returns atEnd)) others
      | succ index => exact .feed noOldFeed noReturn (ih selected)
  | returned noOldFeed others ih =>
      cases index with
      | zero => exact .returned noFeed others
      | succ index => exact .returned noOldFeed (ih selected)

private theorem exists_selected {text : String} (filled : text ≠ "") (number : Option Nat) :
    ∃ line, (ofText text.toList)[place (ofText text.toList).length number]? = some line ∧
      select text number = String.ofList line.body := by
  have inside : place (ofText text.toList).length number < (ofText text.toList).length := by
    have some : (ofText text.toList).length ≠ 0 := by
      intro none
      have empty := flatMap_text_ofText text.toList
      rw [List.eq_nil_of_length_eq_zero none] at empty
      exact filled (String.toList_inj.mp empty.symm)
    unfold place
    omega
  refine ⟨_, List.getElem?_eq_getElem inside, ?_⟩
  unfold select
  simp only [List.getElem?_eq_getElem inside]

private theorem select_empty (number : Option Nat) : select "" number = "" :=
  rfl

private theorem replace_empty (number : Option Nat) (new : String) : replace "" number new = new :=
  rfl

private theorem replace_of_ne_empty {text : String} (filled : text ≠ "") (number : Option Nat)
    (new : String) :
    replace text number new =
      String.ofList (((ofText text.toList).modify
        (place (ofText text.toList).length number) (withBody new.toList)).flatMap Line.text) := by
  obtain ⟨line, selected, _⟩ := exists_selected filled number
  unfold replace
  split
  · next none =>
      rw [none] at selected
      cases selected
  · next lines some => rfl

theorem ofText_replace {text : String} (filled : text ≠ "") (number : Option Nat)
    {new : String} (can : CanReplace (select text number).toList new.toList) :
    ofText (replace text number new).toList =
      (ofText text.toList).modify (place (ofText text.toList).length number)
        (withBody new.toList) := by
  obtain ⟨line, selected, body⟩ := exists_selected filled number
  rw [body, String.toList_ofList] at can
  rw [replace_of_ne_empty filled, String.toList_ofList]
  exact ((areLines_ofText text.toList).modify selected can).ofText_flatMap

private theorem replace_ne_empty {text : String} {number : Option Nat} {new : String}
    (can : CanReplace (select text number).toList new.toList) :
    replace text number new ≠ "" := by
  by_cases filled : text = ""
  · subst filled
    intro empty
    rw [replace_empty] at empty
    subst empty
    exact can.1 rfl
  · obtain ⟨line, selected, _⟩ := exists_selected filled number
    intro empty
    have lines := ofText_replace filled number can
    rw [empty] at lines
    have length := congrArg List.length lines
    rw [List.length_modify] at length
    have inside := (List.getElem?_eq_some_iff.mp selected).1
    rw [← length] at inside
    exact Nat.not_lt_zero _ inside

/-- Writing back what is there changes nothing. -/
theorem replace_select (text : String) (number : Option Nat) :
    replace text number (select text number) = text := by
  by_cases filled : text = ""
  · subst filled
    rfl
  · obtain ⟨line, selected, body⟩ := exists_selected filled number
    have unchanged : (ofText text.toList).modify (place (ofText text.toList).length number)
        (withBody line.body) = ofText text.toList := by
      apply List.ext_getElem?
      intro index
      by_cases here : place (ofText text.toList).length number = index
      · subst here
        rw [List.getElem?_modify_eq, selected]
        rfl
      · rw [List.getElem?_modify_ne _ _ here]
    rw [replace_of_ne_empty filled, body, String.toList_ofList, unchanged,
      flatMap_text_ofText, String.ofList_toList]

def above (text : String) (number : Option Nat) : String :=
  let lines := ofText text.toList
  String.ofList ((lines.take (place lines.length number)).flatMap Line.text)

def below (text : String) (number : Option Nat) : String :=
  let lines := ofText text.toList
  let index := place lines.length number
  String.ofList
    (((lines[index]?).elim [] Line.terminator) ++ (lines.drop (index + 1)).flatMap Line.text)

theorem replace_eq_joined (text : String) (number : Option Nat) (new : String) :
    replace text number new = above text number ++ new ++ below text number := by
  by_cases filled : text = ""
  · subst filled
    have none : ofText [] = [] := rfl
    simp [replace_empty, above, below, none]
  · obtain ⟨line, selected, _⟩ := exists_selected filled number
    obtain ⟨inside, here⟩ := List.getElem?_eq_some_iff.mp selected
    rw [replace_of_ne_empty filled, List.modify_eq_take_cons_drop inside, here,
      ← String.toList_inj]
    simp [above, below, selected, withBody, Line.text]

/-- What has been put on a line is found there. -/
theorem select_replace {text : String} {number : Option Nat} {new : String}
    (can : CanReplace (select text number).toList new.toList) :
    select (replace text number new) number = new := by
  by_cases filled : text = ""
  · subst filled
    rw [replace_empty]
    obtain ⟨line, selected, body⟩ := exists_selected (replace_ne_empty can) number
    rw [replace_empty] at selected body
    rw [ofText_of_not_mem can.2.1 can.1] at selected
    have same : line = { body := new.toList, terminator := [] } :=
      List.mem_singleton.mp (List.mem_of_getElem? selected)
    rw [body, same, String.ofList_toList]
  · obtain ⟨line, selected, _⟩ := exists_selected filled number
    obtain ⟨found, foundSelected, body⟩ := exists_selected (replace_ne_empty can) number
    rw [ofText_replace filled number can, List.length_modify, List.getElem?_modify_eq,
      selected] at foundSelected
    have same : withBody new.toList line = found := Option.some.inj foundSelected
    rw [body, ← same, withBody, String.ofList_toList]

theorem replace_replace {text : String} {number : Option Nat} {new : String} (other : String)
    (can : CanReplace (select text number).toList new.toList) :
    replace (replace text number new) number other = replace text number other := by
  by_cases filled : text = ""
  · subst filled
    have nonempty := replace_ne_empty can
    rw [replace_of_ne_empty nonempty]
    rw [replace_empty, replace_empty, ofText_of_not_mem can.2.1 can.1]
    have first : place (List.length [{ body := new.toList, terminator := [] : Line }])
        number = 0 := by
      unfold place
      exact Nat.min_zero _
    rw [first]
    simp [withBody, Line.text, String.ofList_toList]
  · rw [replace_of_ne_empty (replace_ne_empty can), ofText_replace filled number can,
      List.length_modify, replace_of_ne_empty filled, List.modify_modify_eq]
    rfl

/-! ### Where a line starts -/

/-- The selected line starts at a byte that as many line feeds stand before as there are
lines before it, the last one directly before the line. -/
def StartsAt (text : String) (number : Option Nat) (offset : Nat) : Prop :=
  ∃ front back, front ++ back = text ∧ front.utf8ByteSize = offset ∧
    front.toList.count '\n' = place (ofText text.toList).length number ∧
    ∀ c ∈ front.toList.getLast?, c = '\n'

private theorem forall_mem_getLast?_append_feed {body later : List Char}
    (ends : ∀ c ∈ later.getLast?, c = '\n') :
    ∀ c ∈ (body ++ '\n' :: later).getLast?, c = '\n' := by
  intro c last
  rw [List.getLast?_append, List.getLast?_cons, Option.some_or] at last
  cases atEnd : later.getLast? with
  | none =>
      rw [atEnd] at last
      exact (Option.some.inj last).symm
  | some other =>
      rw [atEnd] at last
      have same : other = c := Option.some.inj last
      exact same ▸ ends other atEnd

private theorem count_append_feed {body later : List Char} (noFeed : '\n' ∉ body) :
    (body ++ '\n' :: later).count '\n' = later.count '\n' + 1 := by
  rw [List.count_append, List.count_eq_zero_of_not_mem noFeed, List.count_cons_self, Nat.zero_add]

/-- Every line but the last has a terminator, which ends with its only line feed. -/
private theorem AreLines.feeds_take {lines : List Line} (areLines : AreLines lines) {index : Nat}
    (within : index ≤ lines.length - 1) :
    ((lines.take index).flatMap Line.text).count '\n' = index ∧
      ∀ c ∈ ((lines.take index).flatMap Line.text).getLast?, c = '\n' := by
  have start : ∀ c ∈ ([] : List Char).getLast?, c = '\n' := by
    intro c last
    cases last
  induction areLines generalizing index with
  | none =>
      have zero : index = 0 := Nat.le_zero.mp within
      subst zero
      exact ⟨rfl, start⟩
  | last _ _ =>
      have zero : index = 0 := Nat.le_zero.mp within
      subst zero
      exact ⟨rfl, start⟩
  | @feed body lines noFeed _ _ ih =>
      cases index with
      | zero => exact ⟨rfl, start⟩
      | succ index =>
          have earlier : index ≤ lines.length - 1 := by
            rw [List.length_cons] at within
            omega
          obtain ⟨count, ends⟩ := ih earlier
          have split : (List.take (index + 1)
              ({ body, terminator := ['\n'] } :: lines)).flatMap Line.text =
                body ++ '\n' :: (lines.take index).flatMap Line.text := by
            simp [Line.text]
          rw [split, count_append_feed noFeed, count]
          exact ⟨rfl, forall_mem_getLast?_append_feed ends⟩
  | @returned body lines noFeed _ ih =>
      cases index with
      | zero => exact ⟨rfl, start⟩
      | succ index =>
          have earlier : index ≤ lines.length - 1 := by
            rw [List.length_cons] at within
            omega
          obtain ⟨count, ends⟩ := ih earlier
          have split : (List.take (index + 1)
              ({ body, terminator := ['\r', '\n'] } :: lines)).flatMap Line.text =
                (body ++ ['\r']) ++ '\n' :: (lines.take index).flatMap Line.text := by
            simp [Line.text]
          have noFeeds : '\n' ∉ body ++ ['\r'] := by
            simpa using noFeed
          rw [split, count_append_feed noFeeds, count]
          exact ⟨rfl, forall_mem_getLast?_append_feed ends⟩

/-- What a text starts with has more line feeds than any shorter start if it ends with one. -/
private theorem eq_of_prefix_of_count_feed {front other : String}
    (shorter : front.toList <+: other.toList)
    (count : front.toList.count '\n' = other.toList.count '\n')
    (ends : ∀ c ∈ other.toList.getLast?, c = '\n') : front = other := by
  obtain ⟨more, split⟩ := shorter
  rw [← split, List.count_append] at count
  have noFeed : '\n' ∉ more := List.count_eq_zero.mp (by omega)
  rcases List.eq_nil_or_concat more with rfl | ⟨init, c, rfl⟩
  · rw [List.append_nil] at split
    exact String.toList_inj.mp split
  · have feed : c = '\n' := by
      apply ends
      rw [← split, List.concat_eq_append, ← List.append_assoc, List.getLast?_concat]
      rfl
    refine absurd ?_ noFeed
    rw [feed, List.concat_eq_append]
    exact List.mem_append_right _ List.mem_cons_self

theorem startsAt_above (text : String) (number : Option Nat) :
    StartsAt text number (above text number).utf8ByteSize := by
  have within : place (ofText text.toList).length number ≤ (ofText text.toList).length - 1 :=
    Nat.min_le_right _ _
  have feeds := (areLines_ofText text.toList).feeds_take within
  have whole := replace_eq_joined text number (select text number)
  rw [replace_select, String.append_assoc] at whole
  refine ⟨above text number, _, whole.symm, rfl, ?_⟩
  unfold above
  rw [String.toList_ofList]
  exact feeds

/-- A text has one such place only. -/
theorem startsAt_iff {text : String} {number : Option Nat} {offset : Nat} :
    StartsAt text number offset ↔ offset = (above text number).utf8ByteSize := by
  constructor
  · rintro ⟨front, back, whole, rfl, count, ends⟩
    obtain ⟨other, rest, otherWhole, otherSize, otherCount, otherEnds⟩ :=
      startsAt_above text number
    rw [← otherSize]
    have fronts : front.toList <+: text.toList := ⟨back.toList, by
      rw [← String.toList_append, whole]⟩
    have others : other.toList <+: text.toList := ⟨rest.toList, by
      rw [← String.toList_append, otherWhole]⟩
    have sameCount := count.trans otherCount.symm
    rcases List.prefix_or_prefix_of_prefix fronts others with shorter | longer
    · rw [eq_of_prefix_of_count_feed shorter sameCount otherEnds]
    · rw [eq_of_prefix_of_count_feed longer sameCount.symm ends]
  · rintro rfl
    exact startsAt_above text number

/-! ### Replacing two lines -/

theorem ne_empty_of_place_ne {text : String} {number other : Option Nat}
    (apart : place (ofText text.toList).length number ≠
      place (ofText text.toList).length other) : text ≠ "" := by
  intro empty
  subst empty
  have first (number : Option Nat) : place (ofText "".toList).length number = 0 :=
    Nat.min_zero _
  exact apart ((first number).trans (first other).symm)

theorem length_ofText_replace {text : String} (filled : text ≠ "") {number : Option Nat}
    {new : String} (can : CanReplace (select text number).toList new.toList) :
    (ofText (replace text number new).toList).length = (ofText text.toList).length := by
  rw [ofText_replace filled number can, List.length_modify]

/-- Another line is selected as if the first one had not been replaced. -/
theorem select_replace_of_place_ne {text : String} {number other : Option Nat} {new : String}
    (can : CanReplace (select text number).toList new.toList)
    (apart : place (ofText text.toList).length number ≠
      place (ofText text.toList).length other) :
    select (replace text number new) other = select text other := by
  have filled := ne_empty_of_place_ne apart
  obtain ⟨line, selected, body⟩ := exists_selected filled other
  obtain ⟨found, foundSelected, foundBody⟩ := exists_selected (replace_ne_empty can) other
  rw [ofText_replace filled number can, List.length_modify,
    List.getElem?_modify_ne _ _ apart, selected] at foundSelected
  have same : line = found := Option.some.inj foundSelected
  rw [body, foundBody, same]

theorem replace_replace_comm {text : String} {number other : Option Nat} {new otherNew : String}
    (can : CanReplace (select text number).toList new.toList)
    (otherCan : CanReplace (select text other).toList otherNew.toList)
    (apart : place (ofText text.toList).length number ≠
      place (ofText text.toList).length other) :
    replace (replace text number new) other otherNew =
      replace (replace text other otherNew) number new := by
  have filled := ne_empty_of_place_ne apart
  rw [replace_of_ne_empty (replace_ne_empty can),
    replace_of_ne_empty (replace_ne_empty otherCan), length_ofText_replace filled can,
    length_ofText_replace filled otherCan, ofText_replace filled number can,
    ofText_replace filled other otherCan, List.modify_modify_ne _ _ _ apart]

theorem feed_not_mem_select (text : String) (number : Option Nat) :
    '\n' ∉ (select text number).toList := by
  by_cases filled : text = ""
  · subst filled
    rw [select_empty]
    exact List.not_mem_nil
  · obtain ⟨line, selected, body⟩ := exists_selected filled number
    rw [body, String.toList_ofList]
    exact (areLines_ofText text.toList).feed_not_mem (List.mem_of_getElem? selected)

/-! ### Selecting and replacing -/

private theorem select_eq_of_place_eq {text : String} {number other : Option Nat}
    (same : place (ofText text.toList).length number =
      place (ofText text.toList).length other) : select text number = select text other := by
  unfold select
  simp only [same]

private theorem place_max_one (count : Nat) (number : Option Nat) :
    place (max count 1) number = place count number := by
  unfold place
  omega

/-- A text keeps its lines when one of them is replaced, and an empty text gets one. -/
theorem length_ofText_replace_eq_max {text : String} {number : Option Nat} {new : String}
    (can : CanReplace (select text number).toList new.toList) :
    (ofText (replace text number new).toList).length = max (ofText text.toList).length 1 := by
  by_cases filled : text = ""
  · subst filled
    rw [replace_empty, ofText_of_not_mem can.2.1 can.1]
    rfl
  · obtain ⟨line, selected, _⟩ := exists_selected filled number
    have inside := (List.getElem?_eq_some_iff.mp selected).1
    rw [length_ofText_replace filled can]
    omega

theorem select_replace_of_place_eq {text : String} {number other : Option Nat} {new : String}
    (can : CanReplace (select text number).toList new.toList)
    (same : place (ofText text.toList).length number =
      place (ofText text.toList).length other) :
    select (replace text number new) other = new := by
  have sameAfter : place (ofText (replace text number new).toList).length other =
      place (ofText (replace text number new).toList).length number := by
    rw [length_ofText_replace_eq_max can, place_max_one, place_max_one, same]
  rw [select_eq_of_place_eq sameAfter, select_replace can]

/-- Selecting and replacing fit together. A line that is written back as it was read leaves
the text as it is. A text that can stand on a line is read where it was written, under every
number that leads to that line, and all other lines are read as before; there are as many
lines as before, or one if there was none; and of two texts written to one line only the
second one stays. -/
theorem select_replace_lens (text : String) (number : Option Nat) :
    replace text number (select text number) = text ∧
    ∀ new, new ≠ "" → '\n' ∉ new.toList → new.toList.getLast? ≠ some '\r' →
      (∀ other, select (replace text number new) other =
        if place (ofText text.toList).length number =
            place (ofText text.toList).length other then new
        else select text other) ∧
      (ofText (replace text number new).toList).length =
        (if text = "" then 1 else (ofText text.toList).length) ∧
      ∀ later, replace (replace text number new) number later =
        replace text number later := by
  refine ⟨replace_select text number, ?_⟩
  intro new filled noFeed noReturn
  have can : CanReplace (select text number).toList new.toList := by
    refine ⟨fun none => filled (String.toList_inj.mp none), noFeed, ?_⟩
    intro returns
    exact absurd returns noReturn
  refine ⟨?_, ?_, fun later => replace_replace later can⟩
  · intro other
    split
    next same => exact select_replace_of_place_eq can same
    next apart => exact select_replace_of_place_ne can apart
  · split
    next empty =>
      rw [length_ofText_replace_eq_max can, empty]
      rfl
    next some => exact length_ofText_replace some can

/-- A number past the end leads to the last line, whose bare carriage return is a part of it.
The first two lines end in different ways, and the second one is empty. -/
theorem select_replace_lens_last_line :
    replace "v1\r\n\n2.0\r" (some 9) (select "v1\r\n\n2.0\r" (some 9)) = "v1\r\n\n2.0\r" ∧
    "2.1" ≠ "" ∧ '\n' ∉ "2.1".toList ∧ "2.1".toList.getLast? ≠ some '\r' ∧
    select (replace "v1\r\n\n2.0\r" (some 9) "2.1") (some 3) = "2.1" ∧
    select (replace "v1\r\n\n2.0\r" (some 9) "2.1") none = "v1" ∧
    replace (replace "v1\r\n\n2.0\r" (some 9) "2.1") (some 9) "" = "v1\r\n\n" := by
  have filled : "2.1" ≠ "" := by decide
  have noFeed : '\n' ∉ "2.1".toList := by decide
  have noReturn : "2.1".toList.getLast? ≠ some '\r' := by decide
  obtain ⟨unchanged, laws⟩ := select_replace_lens "v1\r\n\n2.0\r" (some 9)
  obtain ⟨selects, _, replaces⟩ := laws "2.1" filled noFeed noReturn
  exact ⟨unchanged, filled, noFeed, noReturn, selects (some 3), selects none, replaces ""⟩

end Line

end Versioning
