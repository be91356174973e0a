import Versioning.Proofs.Scheme.Nesting
import Versioning.Proofs.Scheme.Searching

/-!
What the pattern of a scheme matches.

An expression reads a start of a text in several ways, and the first way in the order of
preference counts: a repetition would rather go on, and an option would rather be taken. A
search takes the first place in a text with a way at all. Main statement: what a scheme finds
and reads is what a search for its pattern finds and captures.

The pattern may give back digits to let what follows match, which reading a scheme never
tries. That makes no difference, since nothing that follows starts with a digit.
-/

namespace Versioning

namespace Pattern

/-! ### Ways to read a text -/

def followedBy (first later : Reading) : Reading :=
  { later with captures := first.captures ++ later.captures }

def recaptured (first later : Reading) : Reading :=
  { later with
    captures := List.zipWith (fun old new => new <|> old) first.captures later.captures }

/-- One or more rounds of `inner`, of which every one but the first has to go forward. -/
def rounds (inner : List Char → List Reading) : Nat → List Char → List Reading
  | 0, _ => []
  | limit + 1, text =>
      (inner text).flatMap fun first =>
        (if first.rest.length < text.length then
          (rounds inner limit first.rest).map (recaptured first)
        else []) ++ [first]

namespace Expression

mutual

def captureCount : Expression → Nat
  | .many inner => inner.captureCount
  | .optional inner => inner.captureCount
  | .capture inner => inner.captureCount + 1
  | .bracket inner => inner.captureCount
  | .sequence parts => captureCounts parts
  | _ => 0

def captureCounts : List Expression → Nat
  | [] => 0
  | part :: parts => part.captureCount + captureCounts parts

end

mutual

/-- All ways in which an expression reads a start of `text`, the preferred one first. The text
in which this one stands at the end has `whole` characters. -/
def readings (whole : Nat) : Expression → List Char → List Reading
  | .empty, text => [{ captures := [], rest := text }]
  | .literal mark, c :: text => if c = mark then [{ captures := [], rest := text }] else []
  | .literal _, [] => []
  | .digits, c :: text => if c.isDigit then [{ captures := [], rest := text }] else []
  | .digits, [] => []
  | .start, text => if text.length = whole then [{ captures := [], rest := text }] else []
  | .stop, text => if text = [] then [{ captures := [], rest := text }] else []
  | .many inner, text => rounds (readings whole inner) (text.length + 1) text
  | .optional inner, text =>
      readings whole inner text ++
        [{ captures := List.replicate inner.captureCount none, rest := text }]
  | .capture inner, text =>
      (readings whole inner text).map fun reading =>
        reading.capture (text.take (text.length - reading.rest.length))
  | .bracket inner, text => readings whole inner text
  | .sequence parts, text => sequenceReadings whole parts text

def sequenceReadings (whole : Nat) : List Expression → List Char → List Reading
  | [], text => [{ captures := [], rest := text }]
  | part :: parts, text =>
      (readings whole part text).flatMap fun first =>
        (sequenceReadings whole parts first.rest).map (followedBy first)

end

/-- The first place in a text at which an expression matches, and how it matches there. -/
def search? (expression : Expression) (text : List Char) : Option (Nat × Reading) :=
  text.tails.zipIdx.findSome? fun (found, index) =>
    (expression.readings text.length found).head?.map fun reading => (index, reading)

end Expression

/-! ### The preferred way -/

def firstThen (ways : List Reading) (next : List Char → Option Reading) : Option Reading :=
  ways.findSome? fun first => (next first.rest).map (followedBy first)

private theorem followedBy_assoc (first second third : Reading) :
    followedBy (followedBy first second) third = followedBy first (followedBy second third) := by
  simp [followedBy]

private theorem firstThen_append (ways others : List Reading) (next : List Char → Option Reading) :
    firstThen (ways ++ others) next = (firstThen ways next).or (firstThen others next) :=
  List.findSome?_append

private theorem firstThen_singleton (first : Reading) (next : List Char → Option Reading) :
    firstThen [first] next = (next first.rest).map (followedBy first) :=
  List.findSome?_singleton

private theorem firstThen_map_followedBy (first : Reading) (ways : List Reading)
    (next : List Char → Option Reading) :
    firstThen (ways.map (followedBy first)) next =
      (firstThen ways next).map (followedBy first) := by
  unfold firstThen
  rw [List.findSome?_map, List.map_findSome?]
  refine congrArg (fun answer => ways.findSome? answer) (funext fun later => ?_)
  simp only [Function.comp_apply, Option.map_map]
  exact congrArg (fun join => (next later.rest).map join)
    (funext fun last => followedBy_assoc first later last)

private theorem firstThen_flatMap (ways : List Reading) (others : List Char → List Reading)
    (next : List Char → Option Reading) :
    firstThen (ways.flatMap fun first => (others first.rest).map (followedBy first)) next =
      firstThen ways fun text => firstThen (others text) next := by
  induction ways with
  | nil => rfl
  | cons first ways ih =>
      change _ = firstThen ([first] ++ ways) _
      rw [List.flatMap_cons, firstThen_append, ih, firstThen_map_followedBy, firstThen_append,
        firstThen_singleton]

namespace Expression

variable {whole : Nat}

private theorem firstThen_sequenceReadings_append (front back : List Expression) (text : List Char)
    (next : List Char → Option Reading) :
    firstThen (sequenceReadings whole (front ++ back) text) next =
      firstThen (sequenceReadings whole front text) fun rest =>
        firstThen (sequenceReadings whole back rest) next := by
  induction front generalizing text with
  | nil =>
      rw [List.nil_append, sequenceReadings, firstThen_singleton]
      exact Option.map_id'.symm
  | cons part front ih =>
      rw [List.cons_append, sequenceReadings, sequenceReadings, firstThen_flatMap,
        firstThen_flatMap]
      exact congrArg _ (funext ih)

private theorem readings_ofParts (parts : List Expression) (text : List Char) :
    readings whole (ofParts parts) text = sequenceReadings whole parts text := by
  match parts with
  | [] => rfl
  | [part] => simp [ofParts, sequenceReadings, followedBy]
  | first :: second :: parts => simp [ofParts, readings]

private theorem sequenceReadings_literals (separator text : List Char) :
    sequenceReadings whole (separator.map .literal) text =
      (afterSeparator? separator text).toList.map fun rest => { captures := [], rest } := by
  induction separator generalizing text with
  | nil => rfl
  | cons mark separator ih =>
      rw [List.map_cons, sequenceReadings]
      cases text with
      | nil => rfl
      | cons c text =>
          rw [readings, afterSeparator?]
          by_cases same : c = mark
          · rw [if_pos same, if_pos same.symm, ← ih text, List.flatMap_cons, List.flatMap_nil,
              List.append_nil]
            exact List.map_id' _
          · rw [if_neg same, if_neg (Ne.symm same)]
            rfl

end Expression

end Pattern

open Pattern

/-! ### Digits -/

/-- If digits are given back, there is still no answer where there was none before. -/
def Steady {β : Type} (next : List Char → Option β) : Prop :=
  ∀ digits following, IsRun Char.isDigit digits → next following = none →
    next (digits ++ following) = none

/-- If `answer` is steady, the longest run of digits decides. -/
private theorem findSome?_rounds_digits {β : Type} {answer : Reading → Option β}
    (steady : Steady fun rest => answer { captures := [], rest }) {whole limit : Nat}
    {text : List Char} (enough : text.length < limit) :
    (rounds (Expression.readings whole .digits) limit text).findSome? answer =
      if text.takeWhile Char.isDigit = [] then none
      else answer { captures := [], rest := text.dropWhile Char.isDigit } := by
  induction limit generalizing answer text with
  | zero => exact absurd enough (Nat.not_lt_zero _)
  | succ limit ih =>
      rw [rounds]
      cases text with
      | nil => rfl
      | cons c text =>
          rw [Expression.readings]
          by_cases digit : c.isDigit = true
          · have shorter : text.length < limit := Nat.lt_of_succ_lt_succ enough
            have forward : text.length < (c :: text).length := Nat.lt_succ_self _
            have kept : answer ∘ recaptured { captures := [], rest := text } =
                fun reading => answer { captures := [], rest := reading.rest } := rfl
            have later :=
              @ih (fun reading => answer { captures := [], rest := reading.rest }) steady _ shorter
            rw [if_pos digit, List.flatMap_cons, List.flatMap_nil, List.append_nil, if_pos forward,
              List.findSome?_append, List.findSome?_map, kept, later, List.findSome?_singleton,
              List.takeWhile_cons_of_pos digit, List.dropWhile_cons_of_pos digit,
              if_neg (List.cons_ne_nil _ _)]
            have split : text.takeWhile Char.isDigit ++ text.dropWhile Char.isDigit = text :=
              List.takeWhile_append_dropWhile
            split
            next last =>
              rw [last, List.nil_append] at split
              rw [split]
              rfl
            next run =>
              cases longest : answer { captures := [], rest := text.dropWhile Char.isDigit } with
              | some result => rfl
              | none =>
                  -- What does not follow the whole run follows no shorter one either.
                  have shorter := steady _ _ (isRun_takeWhile_isDigit run) longest
                  simp only [split] at shorter
                  rw [shorter]
                  rfl
          · rw [if_neg digit, List.takeWhile_cons_of_neg digit]
            rfl

/-- Giving back digits of a field is never of use. -/
theorem firstThen_run {whole : Nat} {next : List Char → Option Reading} (steady : Steady next)
    (text : List Char) :
    firstThen (Expression.readings whole (.capture (.many .digits)) text) next =
      readDigits next text := by
  have split : text.takeWhile Char.isDigit ++ text.dropWhile Char.isDigit = text :=
    List.takeWhile_append_dropWhile
  have answers : Steady fun rest => (next rest).map fun later =>
      followedBy (Reading.capture (text.take (text.length - rest.length))
        { captures := [], rest }) later := by
    intro digits following isRun unread
    simp only [Option.map_eq_none_iff] at unread ⊢
    exact steady digits following isRun unread
  rw [firstThen, Expression.readings, Expression.readings, List.findSome?_map]
  refine (findSome?_rounds_digits answers (Nat.lt_succ_self _)).trans ?_
  unfold readDigits
  cases run : text.takeWhile Char.isDigit with
  | nil => rw [if_pos rfl]
  | cons d digits =>
      have front :
          text.take (text.length - (text.dropWhile Char.isDigit).length) = d :: digits := by
        have lengths := congrArg List.length split
        rw [List.length_append] at lengths
        rw [← lengths, Nat.add_sub_cancel, ← run]
        exact (List.prefix_iff_eq_take.mp (List.takeWhile_prefix Char.isDigit)).symm
      rw [if_neg (List.cons_ne_nil _ _), Function.comp_apply]
      simp only [front]
      rfl

/-! ### Bodies -/

theorem Steady.readThen {body : Body} (formed : body.WellFormed)
    {next : List Char → Option Reading} (steady : Steady next) : Steady (body.readThen next) := by
  induction formed generalizing next with
  | done => exact steady
  | @field separator name rest isSeparator _ _ _ =>
      intro digits following isRun unread
      -- No separator starts with a digit, so none is found in front of the digits.
      have unmarked : afterSeparator? separator.toList (digits ++ following) = none := by
        cases taken : afterSeparator? separator.toList (digits ++ following) with
        | none => rfl
        | some text =>
            obtain ⟨d, others, rfl⟩ := List.exists_cons_of_ne_nil isRun.1
            have marked := startsWithDigit_append_of_isSeparator isSeparator text
            rw [← eq_append_of_afterSeparator? taken] at marked
            have digit := isRun.2 d List.mem_cons_self
            simp [startsWithDigit, digit] at marked
      rw [Body.readThen, unmarked]
  | @group inner rest _ _ _ ihInner ihRest =>
      intro digits following isRun unread
      rw [Body.readThen] at unread ⊢
      split at unread
      next => cases unread
      next skipped =>
        rw [ihInner (ihRest steady) digits following isRun skipped,
          ihRest steady digits following isRun (Option.map_eq_none_iff.mp unread)]
        rfl

private theorem Pattern.Expression.captureCount_ofParts (parts : List Expression) :
    (ofParts parts).captureCount = captureCounts parts := by
  match parts with
  | [] => rfl
  | [part] => rfl
  | first :: second :: parts => simp [ofParts, captureCount]

private theorem Pattern.Expression.captureCounts_literals (separator : List Char)
    (parts : List Expression) :
    captureCounts (separator.map .literal ++ parts) = captureCounts parts := by
  induction separator with
  | nil => rfl
  | cons c separator ih =>
      rw [List.map_cons, List.cons_append, captureCounts, ih]
      exact Nat.zero_add _

/-- A field captures its digits. -/
theorem Body.captureCounts_expressions (body : Body) :
    Expression.captureCounts body.expressions = body.fieldCount := by
  induction body with
  | done => rfl
  | field separator name rest ih =>
      rw [expressions, Expression.captureCounts_literals, Expression.captureCounts, ih, fieldCount,
        Nat.add_comm]
      rfl
  | group inner rest ihInner ihRest =>
      rw [expressions, Expression.captureCounts, Expression.captureCount, Expression.captureCount,
        Expression.captureCount_ofParts, ihInner, ihRest, fieldCount]

/-- A field in front of a body that is read as its expressions are. -/
private theorem Body.firstThen_field {rest : Body} {whole : Nat} {next : List Char → Option Reading}
    (steady : Steady (rest.readThen next))
    (later : ∀ text, firstThen (Expression.sequenceReadings whole rest.expressions text) next =
      rest.readThen next text) (separator name : String) (text : List Char) :
    firstThen (Expression.sequenceReadings whole (field separator name rest).expressions text)
        next = (field separator name rest).readThen next text := by
  rw [expressions, Expression.firstThen_sequenceReadings_append,
    Expression.sequenceReadings_literals, Body.readThen]
  cases afterSeparator? separator.toList text with
  | none => rfl
  | some following =>
      rw [Option.toList_some, List.map_singleton, firstThen_singleton, Expression.sequenceReadings,
        firstThen_flatMap, funext later, firstThen_run steady]
      exact Option.map_id'

theorem Body.firstThen_expressions {body : Body} (formed : body.WellFormed) {whole : Nat}
    {next : List Char → Option Reading} (steady : Steady next) (text : List Char) :
    firstThen (Expression.sequenceReadings whole body.expressions text) next =
      body.readThen next text := by
  induction formed generalizing next text with
  | done =>
      rw [expressions, Expression.sequenceReadings, firstThen_singleton]
      exact Option.map_id'
  | @field separator name rest _ _ formedRest ih =>
      exact firstThen_field (steady.readThen formedRest) (ih steady) separator name text
  | @group inner rest _ formedInner formedRest ihInner ihRest =>
      rw [expressions, Expression.sequenceReadings, firstThen_flatMap, Expression.readings,
        Expression.readings, Expression.readings_ofParts, firstThen_append, firstThen_singleton,
        funext (ihRest steady), ihInner (steady.readThen formedRest), Body.readThen,
        Expression.captureCount, Expression.captureCount_ofParts, captureCounts_expressions]
      cases inner.readThen (rest.readThen next) text with
      | none =>
          rw [ihRest steady]
          rfl
      | some reading => rfl

/-! ### Schemes -/

private theorem steady_readRest : Steady readRest := by
  intro _ _ _ impossible
  cases impossible

private theorem steady_readEnd : Steady readEnd := by
  intro digits following isRun _
  have filled : (digits ++ following).isEmpty = false := by
    simp [isRun.1]
  rw [readEnd, filled]
  rfl

namespace Scheme

variable {scheme : Scheme}

private theorem WellFormed.firstThen_expression (formed : scheme.WellFormed) {whole : Nat}
    {next : List Char → Option Reading} (steady : Steady next) (text : List Char) :
    firstThen (scheme.expression.readings whole text) next = scheme.whole.readThen next text := by
  rw [expression, Expression.readings_ofParts]
  exact Body.firstThen_field (steady.readThen formed.body)
    (Body.firstThen_expressions formed.body steady) "" scheme.lead text

private theorem head?_eq_firstThen (ways : List Reading) :
    ways.head? = firstThen ways readRest := by
  cases ways with
  | nil => rfl
  | cons first ways => simp [firstThen, readRest, followedBy]

private theorem WellFormed.head?_readings (formed : scheme.WellFormed) (whole : Nat)
    (text : List Char) :
    (scheme.expression.readings whole text).head? = scheme.whole.readThen readRest text := by
  rw [head?_eq_firstThen, formed.firstThen_expression steady_readRest]

/-- The pattern for whole texts matches where nothing comes in front and nothing behind. -/
private theorem WellFormed.head?_wholeReadings (formed : scheme.WellFormed) (whole : Nat)
    (text : List Char) :
    (scheme.wholeExpression.readings whole text).head? =
      if text.length = whole then scheme.whole.readThen readEnd text else none := by
  have stops : (fun rest => firstThen (Expression.sequenceReadings whole [.stop] rest) readRest) =
      readEnd := by
    funext rest
    cases rest with
    | nil => rfl
    | cons c rest => rfl
  have ends : firstThen (Expression.sequenceReadings whole [.bracket scheme.expression, .stop] text)
      readRest = scheme.whole.readThen readEnd text := by
    rw [Expression.sequenceReadings, firstThen_flatMap, stops, Expression.readings]
    exact formed.firstThen_expression steady_readEnd text
  rw [head?_eq_firstThen, wholeExpression, Expression.readings, Expression.sequenceReadings,
    firstThen_flatMap, Expression.readings]
  split
  next =>
    rw [firstThen_singleton, ends]
    exact Option.map_id'
  next => rfl

/-! ### Searching for a pattern -/

/-- A search looks at the preferred way at each place. -/
private theorem search?_eq_findSome? (expression : Expression) (text : List Char) :
    expression.search? text =
      ((text.tails.map fun found =>
        (expression.readings text.length found).head?).zipIdx).findSome?
          fun (answer, index) => answer.map fun reading => (index, reading) := by
  rw [Expression.search?, List.zipIdx_map, List.findSome?_map]
  rfl

theorem WellFormed.search?_expression (formed : scheme.WellFormed) (text : List Char) :
    scheme.expression.search? text = scheme.firstReading? text := by
  rw [search?_eq_findSome?, firstReading?, scheme.rows_eq,
    funext fun found => formed.head?_readings text.length found]

theorem WellFormed.search?_wholeExpression (formed : scheme.WellFormed) (text : List Char) :
    (scheme.wholeExpression.search? text).map (fun found => found.2.captures) =
      scheme.readWhole? text := by
  have front := formed.head?_wholeReadings text.length text
  rw [if_pos rfl] at front
  rw [search?_eq_findSome?, readWhole?_eq]
  cases read : scheme.whole.readThen readEnd text with
  | some reading =>
      rw [read] at front
      have found := @findSome?_tails
        (fun found => (scheme.wholeExpression.readings text.length found).head?) [] text reading
        front (fun _ _ same filled => absurd (List.append_eq_nil_iff.mp same.symm).2 filled) 0
      rw [List.nil_append] at found
      rw [found]
      rfl
  | none =>
      -- Behind the first character, the start of the text has been passed.
      have nowhere (skipped found : List Char) (split : text = skipped ++ found) :
          (scheme.wholeExpression.readings text.length found).head? = none := by
        rw [formed.head?_wholeReadings]
        split
        next same =>
          have isSuffix : found <:+ text := ⟨skipped, split.symm⟩
          rw [isSuffix.eq_of_length same, read]
        next => rfl
      rw [findSome?_tails_eq_none nowhere]
      rfl

end Scheme

/-! ### Matching a text with a pattern -/

namespace Pattern

def find? (pattern text : String) : Option Occurrence := do
  let expression ← Expression.ofPattern? pattern
  let chars := text.toList
  let (skipped, reading) ← expression.search? chars
  let found := chars.drop skipped
  return {
    before := String.ofList (chars.take skipped)
    core := String.ofList (found.take (found.length - reading.rest.length))
    after := String.ofList reading.rest }

def captures? (pattern text : String) : Option (List (Option (List Char))) := do
  let expression ← Expression.ofPattern? pattern
  let (_, reading) ← expression.search? text.toList
  return reading.captures

end Pattern

namespace Scheme

/-- What a scheme finds in a text is what its pattern finds there. -/
theorem find?_eq_find?_pattern {definition : String} {scheme : Scheme}
    (compiled : Scheme.compile definition = .ok scheme) (text : String) :
    scheme.find? text = Pattern.find? scheme.pattern text := by
  have formed := wellFormed_of_compile compiled
  rw [Pattern.find?, ofPattern?_pattern, find?_eq_map_search?, search?]
  change _ = scheme.expression.search? text.toList >>= _
  rw [formed.search?_expression]
  cases scheme.firstReading? text.toList with
  | none => rfl
  | some found => rfl

/-- What a scheme reads in a whole text is what its pattern, held to both ends of the text,
captures there. -/
theorem readWhole?_eq_captures?_wholePattern {definition : String} {scheme : Scheme}
    (compiled : Scheme.compile definition = .ok scheme) (text : String) :
    scheme.readWhole? text.toList = Pattern.captures? scheme.wholePattern text := by
  have formed := wellFormed_of_compile compiled
  rw [Pattern.captures?, ofPattern?_wholePattern, ← formed.search?_wholeExpression]
  change _ = scheme.wholeExpression.search? text.toList >>= _
  cases scheme.wholeExpression.search? text.toList with
  | none => rfl
  | some found => rfl

end Scheme

end Versioning
