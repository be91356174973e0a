import Versioning.Proofs.Scheme.Pattern

/-!
Which schemes are shallow enough to match.

The expression that a pattern stands for has a nesting of its own, told by its text alone.
For the pattern that matches a whole text this is the level of the scheme, so a scheme
compiles if that expression is nested no deeper than the limit. A group costs three levels,
or two if all that it holds is one other group, and the level lies between what these two
rates give for the deepest group.
-/

namespace Versioning

/-! ### The nesting of expressions -/

namespace Pattern.Expression

mutual

/-- How many parts that are not single characters stand inside each other. -/
def nesting : Expression → Nat
  | .empty => 0
  | .literal _ => 0
  | .start => 0
  | .stop => 0
  | .digits => 1
  | .many inner => inner.nesting + 1
  | .optional inner => inner.nesting + 1
  | .capture inner => inner.nesting + 1
  | .bracket inner => inner.nesting + 1
  | .sequence parts => deepestPart parts + 1

def deepestPart : List Expression → Nat
  | [] => 0
  | part :: parts => max part.nesting (deepestPart parts)

end

private theorem deepestPart_literals (separator : List Char) (parts : List Expression) :
    deepestPart (separator.map .literal ++ parts) = deepestPart parts := by
  induction separator with
  | nil => rfl
  | cons c separator ih =>
      rw [List.map_cons, List.cons_append, deepestPart, ih, nesting, Nat.zero_max]

private theorem nesting_ofParts (parts : List Expression) :
    (ofParts parts).nesting = deepestPart parts + Body.sequenceLevel parts.length := by
  match parts with
  | [] => rfl
  | [part] => simp [ofParts, deepestPart, Body.sequenceLevel]
  | first :: second :: parts => simp [ofParts, nesting, Body.sequenceLevel]

end Pattern.Expression

open Pattern

namespace Body

private theorem length_expressions (body : Body) : body.expressions.length = body.parts := by
  induction body with
  | done => rfl
  | field separator name rest ih =>
      rw [expressions, List.length_append, List.length_map, String.length_toList,
        List.length_cons, ih, parts]
      omega
  | group inner rest ihInner ihRest =>
      rw [expressions, List.length_cons, ihRest, parts, Nat.add_comm]

theorem nesting_expressions (body : Body) :
    Expression.deepestPart body.expressions = body.partLevel := by
  induction body with
  | done => rfl
  | field separator name rest ih =>
      rw [expressions, Expression.deepestPart_literals, Expression.deepestPart, ih]
      rfl
  | group inner rest ihInner ihRest =>
      have inside : (Expression.optional (.bracket (.ofParts inner.expressions))).nesting =
          2 + (inner.partLevel + sequenceLevel inner.parts) := by
        rw [Expression.nesting, Expression.nesting, Expression.nesting_ofParts, ihInner,
          length_expressions]
        omega
      rw [expressions, Expression.deepestPart, inside, ihRest]
      rfl

end Body

namespace Scheme

def wholePattern (scheme : Scheme) : String :=
  "^(?:" ++ scheme.pattern ++ ")$"

def wholeExpression (scheme : Scheme) : Expression :=
  .sequence [.start, .bracket scheme.expression, .stop]

theorem ofPattern?_wholePattern (scheme : Scheme) :
    Expression.ofPattern? scheme.wholePattern = some scheme.wholeExpression := by
  have text : scheme.wholePattern.toList =
      '^' :: '(' :: '?' :: ':' :: (scheme.pieces.flatMap (·.pattern.toList) ++ [')', '$']) := by
    rw [wholePattern, String.toList_append, String.toList_append, scheme.toList_pattern]
    rfl
  have symbols : Symbol.ofText? scheme.wholePattern.toList =
      some (.start :: .bracket :: (scheme.pieces.flatMap Symbol.ofPiece ++ [.close, .stop])) := by
    rw [text, ofText?_char rfl (by decide)]
    change ((Symbol.ofText?
      (scheme.pieces.flatMap (·.pattern.toList) ++ [')', '$'])).map _).map _ = _
    rw [ofText?_pieces]
    rfl
  have built := scheme.whole.ofSymbols?_pieces [] [(false, [.start])] [.close, .stop]
  rw [List.append_nil] at built
  rw [Expression.ofPattern?, symbols]
  change Expression.ofSymbols? [] [(false, [.start])]
    (scheme.whole.pieces.flatMap Symbol.ofPiece ++ [.close, .stop]) = _
  rw [built]
  change some (Expression.sequence
    [.start, .bracket (.ofParts scheme.whole.expressions.reverse.reverse), .stop]) = _
  rw [List.reverse_reverse]
  rfl

theorem nesting_expression (scheme : Scheme) :
    scheme.expression.nesting = scheme.whole.level := by
  rw [expression, Expression.nesting_ofParts, Body.nesting_expressions, Body.length_expressions]
  rfl

theorem nesting_wholeExpression (scheme : Scheme) :
    scheme.wholeExpression.nesting = scheme.level := by
  simp only [wholeExpression, Expression.nesting, Expression.deepestPart, nesting_expression,
    Scheme.level]
  omega

/-! ### What compiles -/

section Compiling

variable {definition : String} {scheme : Scheme} (parsed : Scheme.parse definition = .ok scheme)
include parsed

theorem compile_eq_ok_iff_level :
    Scheme.compile definition = .ok scheme ↔ scheme.level ≤ nestingLimit := by
  rw [Scheme.compile, parsed]
  by_cases shallow : scheme.level ≤ nestingLimit
  · simp [bind, Except.bind, shallow, pure, Except.pure]
  · simp [bind, Except.bind, shallow, throw, throwThe, MonadExceptOf.throw]

private theorem ofDefinition_eq_tooDeep_iff_level :
    Scheme.ofDefinition definition = .error (.malformedScheme definition .tooDeep) ↔
      nestingLimit < scheme.level := by
  rw [Scheme.ofDefinition, Scheme.compile, parsed]
  by_cases shallow : scheme.level ≤ nestingLimit
  · simp [bind, Except.bind, shallow, pure, Except.pure]
  · simp [bind, Except.bind, shallow, throw, throwThe, MonadExceptOf.throw, Nat.lt_of_not_le]

end Compiling

end Scheme

/-! ### Bounds -/

namespace Body

def deepest : Body → Nat
  | .done => 0
  | .field _ _ rest => rest.deepest
  | .group inner rest => max (inner.deepest + 1) rest.deepest

private theorem depth_le_deepest {body : Body} {depth : Nat} {field : Field}
    (known : field ∈ body.fields depth) : field.depth ≤ depth + body.deepest := by
  induction body generalizing depth with
  | done => cases known
  | field separator name rest ih =>
      rcases List.mem_cons.mp known with rfl | later
      · exact Nat.le_add_right depth _
      · exact ih later
  | group inner rest ihInner ihRest =>
      rw [deepest]
      rcases List.mem_append.mp known with inside | behind
      · have bound := ihInner inside
        omega
      · have bound := ihRest behind
        omega

/-- The deepest group holds a field. -/
private theorem WellFormed.exists_deepest {body : Body} (formed : body.WellFormed)
    (holding : body ≠ .done) (depth : Nat) :
    ∃ field ∈ body.fields depth, field.depth = depth + body.deepest := by
  induction formed generalizing depth with
  | done => exact absurd rfl holding
  | @field separator name rest isSeparator isName formedRest ih =>
      by_cases flat : rest = .done
      · subst flat
        exact ⟨_, List.mem_cons_self, rfl⟩
      · obtain ⟨field, known, deep⟩ := ih flat depth
        exact ⟨field, List.mem_cons_of_mem _ known, deep⟩
  | @group inner rest holdingInner formedInner formedRest ihInner ihRest =>
      rw [deepest, fields]
      by_cases inside : rest.deepest ≤ inner.deepest + 1
      · obtain ⟨field, known, deep⟩ := ihInner holdingInner (depth + 1)
        refine ⟨field, List.mem_append_left _ known, ?_⟩
        omega
      · have more : rest ≠ .done := by
          rintro rfl
          exact inside (Nat.zero_le _)
        obtain ⟨field, known, deep⟩ := ihRest more depth
        refine ⟨field, List.mem_append_right _ known, ?_⟩
        omega

private theorem sequenceLevel_le (parts : Nat) : sequenceLevel parts ≤ 1 := by
  unfold sequenceLevel
  split
  · exact Nat.le_refl 1
  · exact Nat.zero_le 1

private theorem partLevel_le (body : Body) : body.partLevel ≤ 3 * body.deepest + 3 := by
  induction body with
  | done => exact Nat.zero_le _
  | field separator name rest ih =>
      rw [partLevel, deepest]
      omega
  | group inner rest ihInner ihRest =>
      have held := sequenceLevel_le inner.parts
      rw [partLevel, deepest]
      omega

private theorem parts_pos {body : Body} (holding : body ≠ .done) : 0 < body.parts := by
  cases body with
  | done => exact absurd rfl holding
  | field separator name rest =>
      rw [parts]
      omega
  | group inner rest =>
      rw [parts]
      omega

private theorem sequenceLevel_of_two_le {parts : Nat} (several : 2 ≤ parts) :
    sequenceLevel parts = 1 :=
  if_pos several

/-- The lower bound for what a group holds, and for the deepest part of a body with groups. -/
theorem WellFormed.le_level {body : Body} (formed : body.WellFormed) :
    (body ≠ .done → 2 * body.deepest + 4 ≤ body.level) ∧
      (1 ≤ body.deepest → 2 * body.deepest + 4 ≤ body.partLevel) := by
  induction formed with
  | done => exact ⟨fun holding => absurd rfl holding, fun deep => absurd deep (by decide)⟩
  | @field separator name rest isSeparator isName formedRest ih =>
      have long : 0 < separator.length := by
        rw [← String.length_toList]
        exact List.length_pos_iff.mpr isSeparator.1
      have held : (Body.field separator name rest).level =
          (Body.field separator name rest).partLevel + 1 := by
        rw [level, sequenceLevel_of_two_le (by rw [parts]; omega)]
      have below := ih.2
      rw [held, partLevel, deepest]
      constructor
      · intro _
        omega
      · intro deep
        have rest := below deep
        omega
  | @group inner rest holding formedInner formedRest ihInner ihRest =>
      have inside := ihInner.1 holding
      have behind := ihRest.2
      have part : 2 * (Body.group inner rest).deepest + 4 ≤ (Body.group inner rest).partLevel := by
        rw [level] at inside
        rw [partLevel, deepest]
        omega
      exact ⟨fun _ => Nat.le_trans part (Nat.le_add_right _ _), fun _ => part⟩

end Body

def Scheme.deepest (scheme : Scheme) : Nat :=
  scheme.body.deepest

/-- The deepest nesting of a scheme is the greatest depth of its fields. -/
theorem Scheme.WellFormed.isGreatest_deepest {scheme : Scheme} (formed : scheme.WellFormed) :
    (∃ field ∈ scheme.fields, field.depth = scheme.deepest) ∧
      ∀ field ∈ scheme.fields, field.depth ≤ scheme.deepest := by
  constructor
  · by_cases flat : scheme.body = .done
    · refine ⟨_, List.mem_cons_self, ?_⟩
      rw [deepest, flat]
      rfl
    · obtain ⟨field, known, deep⟩ := formed.body.exists_deepest flat 0
      exact ⟨field, List.mem_cons_of_mem _ known, deep.trans (Nat.zero_add _)⟩
  · intro field known
    have bound : field.depth ≤ 0 + scheme.whole.deepest := Body.depth_le_deepest known
    rwa [Nat.zero_add] at bound

theorem Scheme.level_le (scheme : Scheme) : scheme.level ≤ 3 * scheme.deepest + 6 := by
  have part := scheme.whole.partLevel_le
  have held := Body.sequenceLevel_le scheme.whole.parts
  change 2 + (scheme.whole.partLevel + _) ≤ 3 * scheme.whole.deepest + 6
  omega

theorem Scheme.WellFormed.le_level {scheme : Scheme} (formed : scheme.WellFormed)
    (deep : 1 ≤ scheme.deepest) : 2 * scheme.deepest + 7 ≤ scheme.level := by
  have part := formed.body.le_level.2 deep
  have holding : scheme.body ≠ .done := by
    intro empty
    rw [deepest, empty] at deep
    exact absurd deep (by decide)
  have some := Body.parts_pos holding
  have held : scheme.level = 2 + (max 3 scheme.body.partLevel + 1) := by
    rw [level, whole, Body.level, Body.sequenceLevel_of_two_le (by rw [Body.parts]; omega)]
    rfl
  rw [held]
  rw [deepest] at *
  omega

section Parsed

variable {definition : String} {scheme : Scheme} (parsed : Scheme.parse definition = .ok scheme)
include parsed

theorem Scheme.compile_of_deepest_le (shallow : scheme.deepest ≤ 81) :
    Scheme.compile definition = .ok scheme := by
  have above := scheme.level_le
  refine (compile_eq_ok_iff_level parsed).mpr ?_
  rw [nestingLimit]
  omega

theorem Scheme.tooDeep_of_le_deepest (deep : 122 ≤ scheme.deepest) :
    Scheme.ofDefinition definition = .error (.malformedScheme definition .tooDeep) := by
  have below := (wellFormed_of_parse parsed).1.le_level (by omega)
  refine (ofDefinition_eq_tooDeep_iff_level parsed).mpr ?_
  rw [nestingLimit]
  omega

/-- The pattern of a scheme is nested two levels less than the one that matches a whole
text, so the second is accepted only if the first is. -/
theorem Scheme.compile_eq_ok_iff_accepted {accepts : String → Prop}
    (limited : ∀ pattern expression, Expression.ofPattern? pattern = some expression →
      (accepts pattern ↔ expression.nesting ≤ 250)) :
    Scheme.compile definition = .ok scheme ↔
      accepts scheme.pattern ∧ accepts scheme.wholePattern := by
  rw [compile_eq_ok_iff_level parsed, limited _ _ scheme.ofPattern?_pattern,
    limited _ _ scheme.ofPattern?_wholePattern, nesting_expression, nesting_wholeExpression,
    Scheme.level, nestingLimit]
  omega

end Parsed

/-! ### Two rows of schemes at the bounds -/

def Body.chain : Nat → Nat → Body
  | _, 0 => .done
  | index, depth + 1 =>
      .group (.field "." ("f" ++ index.repr) (chain (index + 1) depth)) .done

def Body.bracketed : Nat → Body
  | 0 => .field "." "b" .done
  | depth + 1 => .group (bracketed depth) .done

/-- The text `f0[.f1[.f2]]`, for any number of groups. -/
def chainDefinition (depth : Nat) : String :=
  "f0" ++ String.join ((List.range' 1 depth).map fun index => "[.f" ++ index.repr) ++
    String.ofList (List.replicate depth ']')

/-- The text `f[[.b]]`, for any number of brackets. -/
def bracketedDefinition (depth : Nat) : String :=
  "f" ++ String.ofList (List.replicate depth '[') ++ ".b" ++
    String.ofList (List.replicate depth ']')

private theorem IsRun.of_all {kind : Char → Bool} {text : List Char} (filled : text ≠ [])
    (all : text.all kind = true) : IsRun kind text :=
  ⟨filled, List.all_eq_true.mp all⟩

private theorem isSeparator_dot : IsSeparator "." :=
  .of_all (by decide) rfl

private theorem isName_numbered (index : Nat) : IsName ("f" ++ index.repr) := by
  have digits : ∀ c ∈ index.repr.toList, isNameChar c = true := by
    intro c member
    rw [Nat.repr, String.toList_ofList] at member
    exact isNameChar_of_isDigit c (Nat.isDigit_of_mem_toDigits (by decide) (by decide) member)
  rw [IsName, String.toList_append]
  exact .cons (by decide) digits

namespace Body

private theorem characters_chain (index depth : Nat) :
    (chain index depth).characters =
      (List.range' index depth).flatMap (fun index => ("[.f" ++ index.repr).toList) ++
        List.replicate depth ']' := by
  induction depth generalizing index with
  | zero => rfl
  | succ depth ih =>
      rw [chain, characters_group, characters_field, ih, List.range'_succ, List.flatMap_cons,
        List.replicate_succ']
      simp [characters, pieces]

private theorem names_chain (index depth : Nat) :
    Piece.names (chain index depth).pieces =
      (List.range' index depth).map fun index => "f" ++ index.repr := by
  induction depth generalizing index with
  | zero => rfl
  | succ depth ih =>
      rw [List.range'_succ, List.map_cons, ← ih]
      change ("f" ++ index.repr) :: Piece.names
        ((chain (index + 1) depth).pieces ++ [.closing]) = _
      rw [Piece.names_append]
      exact congrArg _ (List.append_nil _)

private theorem wellFormed_chain (index depth : Nat) : (chain index depth).WellFormed := by
  induction depth generalizing index with
  | zero => exact .done
  | succ depth ih =>
      exact .group (by simp) (.field isSeparator_dot (isName_numbered index) (ih _)) .done

private theorem deepest_chain (index depth : Nat) : (chain index depth).deepest = depth := by
  induction depth generalizing index with
  | zero => rfl
  | succ depth ih =>
      rw [chain, deepest, deepest, deepest, ih]
      exact Nat.max_zero _

private theorem partLevel_chain (index depth : Nat) :
    max 3 (chain index depth).partLevel = 3 * depth + 3 := by
  induction depth generalizing index with
  | zero => rfl
  | succ depth ih =>
      have several : 2 ≤ (Body.field "." ("f" ++ index.repr) (chain (index + 1) depth)).parts := by
        change 2 ≤ 1 + 1 + _
        omega
      change max 3 (max (2 + (max 3 (chain (index + 1) depth).partLevel + sequenceLevel _)) 0) = _
      rw [ih, sequenceLevel_of_two_le several]
      omega

private theorem characters_bracketed (depth : Nat) :
    (bracketed depth).characters =
      List.replicate depth '[' ++ ['.', 'b'] ++ List.replicate depth ']' := by
  induction depth with
  | zero => rfl
  | succ depth ih =>
      rw [bracketed, characters_group, ih, List.replicate_succ, List.replicate_succ' (a := ']')]
      simp [characters, pieces]

private theorem names_bracketed (depth : Nat) : Piece.names (bracketed depth).pieces = ["b"] := by
  induction depth with
  | zero => rfl
  | succ depth ih =>
      change Piece.names ((bracketed depth).pieces ++ [.closing]) = _
      rw [Piece.names_append, ih]
      rfl

private theorem wellFormed_bracketed (depth : Nat) : (bracketed depth).WellFormed := by
  induction depth with
  | zero => exact .field isSeparator_dot (.of_all (by decide) rfl) .done
  | succ depth ih =>
      refine .group ?_ ih .done
      cases depth with
      | zero => simp [bracketed]
      | succ depth => simp [bracketed]

private theorem deepest_bracketed (depth : Nat) : (bracketed depth).deepest = depth := by
  induction depth with
  | zero => rfl
  | succ depth ih =>
      rw [bracketed, deepest, ih]
      exact Nat.max_zero _

private theorem level_bracketed (depth : Nat) : (bracketed depth).level = 2 * depth + 4 := by
  induction depth with
  | zero => rfl
  | succ depth ih =>
      have single : (bracketed (depth + 1)).level = max (2 + (bracketed depth).level) 0 := rfl
      rw [single, ih]
      omega

end Body

namespace Scheme

def chain (depth : Nat) : Scheme :=
  ⟨"f0", .chain 1 depth⟩

def bracketed (depth : Nat) : Scheme :=
  ⟨"f", .bracketed depth⟩

private theorem names_fields_chain (depth : Nat) :
    (chain depth).fields.map Field.name =
      (List.range' 0 (depth + 1)).map fun index => "f" ++ index.repr := by
  rw [map_name_fields, chain, Body.names_chain]
  rfl

private theorem distinct_chain (depth : Nat) : ((chain depth).fields.map Field.name).Nodup := by
  have readBack : Function.LeftInverse (fun text => Nat.ofDigitChars 10 text.toList 0)
      Nat.repr := by
    intro index
    change Nat.ofDigitChars 10 (String.ofList (Nat.toDigits 10 index)).toList 0 = index
    rw [String.toList_ofList, Nat.ofDigitChars_ten_toDigits]
  have apart : (List.range' 0 (depth + 1)).Nodup := List.nodup_range'
  rw [names_fields_chain]
  refine List.pairwise_map.mpr (apart.imp fun different same => ?_)
  exact different (readBack.injective ((String.append_right_inj "f").mp same))

private theorem parse_chain (depth : Nat) :
    Scheme.parse (chainDefinition depth) = .ok (chain depth) := by
  refine (parse_eq_ok_iff _ _).mpr
    ⟨⟨isName_numbered 0, Body.wellFormed_chain 1 depth, distinct_chain depth⟩, ?_⟩
  apply String.toList_inj.mp
  rw [toList_spelling, chain, Body.characters_chain, chainDefinition]
  simp [List.flatMap_map]

example : chainDefinition 3 = "f0[.f1[.f2[.f3]]]" := by decide

private theorem parse_bracketed (depth : Nat) :
    Scheme.parse (bracketedDefinition depth) = .ok (bracketed depth) := by
  refine (parse_eq_ok_iff _ _).mpr ⟨⟨?_, Body.wellFormed_bracketed depth, ?_⟩, ?_⟩
  · change IsName "f"
    exact .of_all (by decide) rfl
  · rw [map_name_fields, bracketed, Body.names_bracketed]
    change ["f", "b"].Nodup
    decide
  · apply String.toList_inj.mp
    rw [toList_spelling, bracketed, Body.characters_bracketed, bracketedDefinition]
    simp

private theorem level_chain (depth : Nat) : 3 * depth + 5 ≤ (chain depth).level := by
  have part := Body.partLevel_chain 1 depth
  change _ ≤ 2 + (max 3 (Body.chain 1 depth).partLevel + _)
  omega

private theorem level_bracketed_le (depth : Nat) : (bracketed depth).level ≤ 2 * depth + 7 := by
  have inside := Body.level_bracketed depth
  have held := Body.sequenceLevel_le (bracketed depth).whole.parts
  change 2 + (max 3 (Body.bracketed depth).partLevel + _) ≤ _
  rw [Body.level] at inside
  omega

theorem compile_chain (depth : Nat) :
    (Scheme.compile (chainDefinition depth) = .ok (chain depth) ↔ depth ≤ 81) ∧
      (Scheme.ofDefinition (chainDefinition depth) =
        .error (.malformedScheme (chainDefinition depth) .tooDeep) ↔ 82 ≤ depth) := by
  have below := level_chain depth
  have above := (chain depth).level_le
  have deep : (chain depth).deepest = depth := Body.deepest_chain 1 depth
  rw [compile_eq_ok_iff_level (parse_chain depth),
    ofDefinition_eq_tooDeep_iff_level (parse_chain depth), nestingLimit]
  constructor <;> omega

theorem compile_bracketed (depth : Nat) :
    (Scheme.compile (bracketedDefinition depth) = .ok (bracketed depth) ↔ depth ≤ 121) ∧
      (Scheme.ofDefinition (bracketedDefinition depth) =
        .error (.malformedScheme (bracketedDefinition depth) .tooDeep) ↔ 122 ≤ depth) := by
  have parsed := parse_bracketed depth
  have above := level_bracketed_le depth
  have deep : (bracketed depth).deepest = depth := Body.deepest_bracketed depth
  have below := (wellFormed_of_parse parsed).1.le_level
  rw [compile_eq_ok_iff_level parsed, ofDefinition_eq_tooDeep_iff_level parsed, nestingLimit]
  constructor <;> omega

/-- A scheme compiles exactly if the expression that its whole pattern stands for is nested
no deeper than the limit, so whatever accepts such patterns and no others accepts the two
patterns of a scheme that compiles. The nesting lies between two rates in the deepest group:
schemes with up to 81 groups inside each other compile and schemes with 122 do not, and
there are schemes at both bounds. -/
theorem compile_by_nesting :
    (∀ definition scheme, Scheme.parse definition = .ok scheme →
      ∃ searched whole,
        Expression.ofPattern? scheme.pattern = some searched ∧
        Expression.ofPattern? ("^(?:" ++ scheme.pattern ++ ")$") = some whole ∧
        searched.nesting + 2 = whole.nesting ∧
        (Scheme.compile definition = .ok scheme ↔ whole.nesting ≤ 250) ∧
        (Scheme.ofDefinition definition = .error (.malformedScheme definition .tooDeep) ↔
          250 < whole.nesting) ∧
        (∀ accepts : String → Prop,
          (∀ pattern expression, Expression.ofPattern? pattern = some expression →
            (accepts pattern ↔ expression.nesting ≤ 250)) →
          (Scheme.compile definition = .ok scheme ↔
            accepts scheme.pattern ∧ accepts ("^(?:" ++ scheme.pattern ++ ")$"))) ∧
        ((∃ field ∈ scheme.fields, field.depth = scheme.deepest) ∧
          ∀ field ∈ scheme.fields, field.depth ≤ scheme.deepest) ∧
        whole.nesting ≤ 3 * scheme.deepest + 6 ∧
        (1 ≤ scheme.deepest → 2 * scheme.deepest + 7 ≤ whole.nesting) ∧
        (scheme.deepest ≤ 81 → Scheme.compile definition = .ok scheme) ∧
        (122 ≤ scheme.deepest →
          Scheme.ofDefinition definition = .error (.malformedScheme definition .tooDeep))) ∧
    (∀ depth, ∃ scheme, Scheme.parse (chainDefinition depth) = .ok scheme ∧
      scheme.deepest = depth ∧
      (Scheme.compile (chainDefinition depth) = .ok scheme ↔ depth ≤ 81) ∧
      (Scheme.ofDefinition (chainDefinition depth) =
        .error (.malformedScheme (chainDefinition depth) .tooDeep) ↔ 82 ≤ depth)) ∧
    ∀ depth, ∃ scheme, Scheme.parse (bracketedDefinition depth) = .ok scheme ∧
      scheme.deepest = depth ∧
      (Scheme.compile (bracketedDefinition depth) = .ok scheme ↔ depth ≤ 121) ∧
      (Scheme.ofDefinition (bracketedDefinition depth) =
        .error (.malformedScheme (bracketedDefinition depth) .tooDeep) ↔ 122 ≤ depth) := by
  refine ⟨?_, fun depth => ?_, fun depth => ?_⟩
  · intro definition scheme parsed
    have formed := (wellFormed_of_parse parsed).1
    have compiles := compile_eq_ok_iff_level parsed
    have refused := ofDefinition_eq_tooDeep_iff_level parsed
    have above := scheme.level_le
    have below := formed.le_level
    have less : scheme.expression.nesting + 2 = scheme.wholeExpression.nesting := by
      rw [nesting_expression, nesting_wholeExpression, Scheme.level, Nat.add_comm]
    rw [← nesting_wholeExpression] at compiles refused above below
    exact ⟨_, _, scheme.ofPattern?_pattern, scheme.ofPattern?_wholePattern, less, compiles,
      refused, fun _ => compile_eq_ok_iff_accepted parsed, formed.isGreatest_deepest, above,
      below, compile_of_deepest_le parsed, tooDeep_of_le_deepest parsed⟩
  · exact ⟨chain depth, parse_chain depth, Body.deepest_chain 1 depth, compile_chain depth⟩
  · exact ⟨bracketed depth, parse_bracketed depth, Body.deepest_bracketed depth,
      compile_bracketed depth⟩

/-- A group that holds nothing but a group costs less than one with a field of its own. -/
theorem compile_by_nesting_brackets :
    Scheme.parse "f[[.b]][.c]" =
      .ok ⟨"f", .group (.group (.field "." "b" .done) .done)
        (.group (.field "." "c" .done) .done)⟩ ∧
    Scheme.compile "f[[.b]][.c]" =
      .ok ⟨"f", .group (.group (.field "." "b" .done) .done)
        (.group (.field "." "c" .done) .done)⟩ ∧
    ∃ whole, Expression.ofPattern?
        "^(?:([0-9]+)(?:(?:\\.([0-9]+))?)?(?:\\.([0-9]+))?)$" = some whole ∧
      whole.nesting = 11 ∧ whole.nesting ≤ 250 := by
  let scheme : Scheme :=
    ⟨"f", .group (.group (.field "." "b" .done) .done) (.group (.field "." "c" .done) .done)⟩
  have parsed : Scheme.parse "f[[.b]][.c]" = .ok scheme := by rfl
  obtain ⟨_, whole, _, read, _, compiles, _, accepted, _, _, below, _, _⟩ :=
    compile_by_nesting.1 _ _ parsed
  have exact : whole.nesting = 11 := by
    have same := (ofPattern?_wholePattern scheme).symm.trans read
    cases same
    rfl
  have compiled : Scheme.compile "f[[.b]][.c]" = .ok scheme := compiles.mpr (by omega)
  -- A reader that accepts the expressions up to the limit and nothing else.
  obtain ⟨_, _, readAgain, shallow⟩ := (accepted
    (fun pattern => ∃ expression, Expression.ofPattern? pattern = some expression ∧
      expression.nesting ≤ 250)
    (fun pattern expression known => by simp [known])).mp compiled
  cases read.symm.trans readAgain
  exact ⟨parsed, compiled, whole, read, exact, shallow⟩

end Scheme

end Versioning
