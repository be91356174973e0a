import Versioning.Proofs.Scheme.Tokens
import Versioning.Scheme.Pattern

/-!
Patterns read back.

A pattern is one text, in which the marks of its syntax stand beside the characters of
separators. It is read in two steps: the text is cut into symbols, and the symbols are
put together to an expression. Main statement: whatever the separators are made of, each
of their characters stands for itself, and the pattern gives back the tokens and the
separators of its scheme.
-/

namespace Versioning

namespace Pattern

/-! ### Symbols -/

inductive Symbol
  | literal (c : Char)
  | capture
  | bracket
  | close
  | digits
  | many
  | optional
  | start
  | stop
  deriving DecidableEq, Repr

/-- The symbol of a single character without a backslash. Alternatives, wildcards and
counted repetitions are not read, nor other classes than that of the digits. -/
def Symbol.ofChar? (c : Char) : Option Symbol :=
  if c = '(' then some .capture
  else if c = ')' then some .close
  else if c = '+' then some .many
  else if c = '?' then some .optional
  else if c = '^' then some .start
  else if c = '$' then some .stop
  else if ['\\', '.', '*', '|', '[', '\x7b'].contains c then none
  else some (.literal c)

def Symbol.ofText? : List Char → Option (List Symbol)
  | [] => some []
  | '\\' :: c :: text =>
      if patternMarks.contains c then (ofText? text).map (.literal c :: ·) else none
  | '[' :: '0' :: '-' :: '9' :: ']' :: text => (ofText? text).map (.digits :: ·)
  | '(' :: '?' :: ':' :: text => (ofText? text).map (.bracket :: ·)
  | '(' :: '?' :: _ => none
  | c :: text => (ofChar? c).bind fun symbol => (ofText? text).map (symbol :: ·)

def Symbol.ofPiece : Piece → List Symbol
  | .opening => [.bracket]
  | .closing => [.close, .optional]
  | .field separator _ =>
      separator.toList.map .literal ++ [.capture, .digits, .many, .close]

/-- A character that no longer symbol starts with is a symbol of its own. -/
theorem ofText?_char {c : Char} {symbol : Symbol} (known : Symbol.ofChar? c = some symbol)
    (plain : c ≠ '(') (text : List Char) :
    Symbol.ofText? (c :: text) = (Symbol.ofText? text).map (symbol :: ·) := by
  have notEscape : c ≠ '\\' := by
    rintro rfl
    cases known
  have notClass : c ≠ '[' := by
    rintro rfl
    cases known
  simp [Symbol.ofText?, known, plain, notEscape, notClass]

theorem ofText?_escapeChar (c : Char) (text : List Char) :
    Symbol.ofText? (escapeChar c ++ text) = (Symbol.ofText? text).map (.literal c :: ·) := by
  by_cases mark : patternMarks.contains c
  · rw [escapeChar, if_pos mark]
    exact if_pos mark
  · rw [escapeChar, if_neg mark, List.singleton_append]
    simp only [patternMarks, List.contains_eq_mem, List.mem_cons, List.not_mem_nil, or_false,
      not_or, decide_eq_true_eq] at mark
    have known : Symbol.ofChar? c = some (.literal c) := by simp [Symbol.ofChar?, mark]
    exact ofText?_char known (by simp [mark]) text

private theorem ofText?_flatMap_escapeChar (separator text : List Char) :
    Symbol.ofText? (separator.flatMap escapeChar ++ text) =
      (Symbol.ofText? text).map (separator.map .literal ++ ·) := by
  induction separator with
  | nil => simp
  | cons c separator ih =>
      rw [List.flatMap_cons, List.append_assoc, ofText?_escapeChar, ih, Option.map_map]
      rfl

private theorem ofText?_run (text : List Char) :
    Symbol.ofText? ("([0-9]+)".toList ++ text) =
      (Symbol.ofText? text).map ([.capture, .digits, .many, .close] ++ ·) := by
  have inside : Symbol.ofText? ('+' :: ')' :: text) =
      (Symbol.ofText? text).map ([.many, .close] ++ ·) := by
    rw [ofText?_char rfl (by decide), ofText?_char rfl (by decide), Option.map_map]
    rfl
  change ((Symbol.ofText? ('+' :: ')' :: text)).map (.digits :: ·)).map (.capture :: ·) = _
  rw [inside, Option.map_map, Option.map_map]
  rfl

/-- Each piece of a scheme is cut into its own symbols, whatever text follows. -/
private theorem ofText?_piece (piece : Piece) (text : List Char) :
    Symbol.ofText? (piece.pattern.toList ++ text) =
      (Symbol.ofText? text).map (Symbol.ofPiece piece ++ ·) := by
  cases piece with
  | opening => rfl
  | closing =>
      change Symbol.ofText? (')' :: '?' :: text) = _
      rw [ofText?_char rfl (by decide), ofText?_char rfl (by decide), Option.map_map]
      rfl
  | field separator name =>
      rw [Piece.pattern, escape, String.toList_append, String.toList_ofList, List.append_assoc,
        ofText?_flatMap_escapeChar, ofText?_run, Option.map_map]
      simp only [Symbol.ofPiece, List.append_assoc]
      rfl

theorem ofText?_pieces (pieces : List Piece) (text : List Char) :
    Symbol.ofText? (pieces.flatMap (·.pattern.toList) ++ text) =
      (Symbol.ofText? text).map (pieces.flatMap Symbol.ofPiece ++ ·) := by
  induction pieces with
  | nil => simp
  | cons piece pieces ih =>
      rw [List.flatMap_cons, List.append_assoc, ofText?_piece, ih, Option.map_map]
      simp only [List.flatMap_cons, List.append_assoc]
      rfl

/-! ### Expressions -/

inductive Expression
  | empty
  | literal (c : Char)
  | digits
  | start
  | stop
  | many (inner : Expression)
  | optional (inner : Expression)
  | capture (inner : Expression)
  | bracket (inner : Expression)
  | sequence (parts : List Expression)
  deriving Repr, Inhabited

namespace Expression

def ofParts : List Expression → Expression
  | [] => .empty
  | [part] => part
  | parts => .sequence parts

def isRepetition : Expression → Bool
  | .many _ => true
  | .optional _ => true
  | _ => false

/-- Puts symbols together. `parts` are those of the innermost group that is open, the last
one first, and `outer` holds for each open group whether it captures and the parts in front
of it. A question mark behind a repetition would change how that repetition is tried, which
is not read. -/
def ofSymbols? (parts : List Expression) (outer : List (Bool × List Expression)) :
    List Symbol → Option Expression
  | [] => if outer = [] then some (ofParts parts.reverse) else none
  | .literal c :: symbols => ofSymbols? (.literal c :: parts) outer symbols
  | .digits :: symbols => ofSymbols? (.digits :: parts) outer symbols
  | .start :: symbols => ofSymbols? (.start :: parts) outer symbols
  | .stop :: symbols => ofSymbols? (.stop :: parts) outer symbols
  | .capture :: symbols => ofSymbols? [] ((true, parts) :: outer) symbols
  | .bracket :: symbols => ofSymbols? [] ((false, parts) :: outer) symbols
  | .close :: symbols =>
      match outer with
      | (true, before) :: outer =>
          ofSymbols? (.capture (ofParts parts.reverse) :: before) outer symbols
      | (false, before) :: outer =>
          ofSymbols? (.bracket (ofParts parts.reverse) :: before) outer symbols
      | [] => none
  | .many :: symbols =>
      match parts with
      | part :: parts => ofSymbols? (.many part :: parts) outer symbols
      | [] => none
  | .optional :: symbols =>
      match parts with
      | part :: parts =>
          if part.isRepetition then none else ofSymbols? (.optional part :: parts) outer symbols
      | [] => none

def ofPattern? (pattern : String) : Option Expression :=
  (Symbol.ofText? pattern.toList).bind (ofSymbols? [] [])

end Expression

end Pattern

open Pattern

/-! ### The expression of a scheme -/

/-- The parts of the expression of a body: one for each character of a separator, one run of
digits for each field, and one that may be left out for each group. -/
def Body.expressions : Body → List Expression
  | .done => []
  | .field separator _ rest =>
      separator.toList.map .literal ++ .capture (.many .digits) :: rest.expressions
  | .group inner rest =>
      .optional (.bracket (.ofParts inner.expressions)) :: rest.expressions

def Scheme.expression (scheme : Scheme) : Expression :=
  .ofParts scheme.whole.expressions

private theorem Pattern.Expression.ofSymbols?_literals (separator : List Char)
    (parts : List Expression)
    (outer : List (Bool × List Expression)) (following : List Symbol) :
    ofSymbols? parts outer (separator.map .literal ++ following) =
      ofSymbols? ((separator.map Expression.literal).reverse ++ parts) outer following := by
  induction separator generalizing parts with
  | nil => rfl
  | cons c separator ih =>
      rw [List.map_cons, List.cons_append, ofSymbols?, ih, List.map_cons, List.reverse_cons,
        List.append_assoc, List.singleton_append]

/-- The symbols of a body become its parts, in whatever group they stand. -/
theorem Body.ofSymbols?_pieces (body : Body) (parts : List Expression)
    (outer : List (Bool × List Expression)) (following : List Symbol) :
    Expression.ofSymbols? parts outer (body.pieces.flatMap Symbol.ofPiece ++ following) =
      Expression.ofSymbols? (body.expressions.reverse ++ parts) outer following := by
  induction body generalizing parts outer following with
  | done => rfl
  | field separator name rest ih =>
      rw [pieces, List.flatMap_cons, Symbol.ofPiece, List.append_assoc, List.append_assoc,
        Expression.ofSymbols?_literals]
      change Expression.ofSymbols?
        (.capture (.many .digits) :: ((separator.toList.map Expression.literal).reverse ++ parts))
        outer (rest.pieces.flatMap Symbol.ofPiece ++ following) = _
      rw [ih, expressions, List.reverse_append, List.reverse_cons]
      simp only [List.append_assoc, List.cons_append, List.nil_append]
  | group inner rest ihInner ihRest =>
      have symbols : (Body.group inner rest).pieces.flatMap Symbol.ofPiece ++ following =
          .bracket :: (inner.pieces.flatMap Symbol.ofPiece ++
            .close :: .optional :: (rest.pieces.flatMap Symbol.ofPiece ++ following)) := by
        simp [pieces, Symbol.ofPiece]
      rw [symbols, Expression.ofSymbols?, ihInner, List.append_nil]
      change Expression.ofSymbols?
        (.optional (.bracket (.ofParts inner.expressions.reverse.reverse)) :: parts) outer
        (rest.pieces.flatMap Symbol.ofPiece ++ following) = _
      rw [ihRest, List.reverse_reverse, expressions, List.reverse_cons, List.append_assoc,
        List.singleton_append]

theorem Scheme.toList_pattern (scheme : Scheme) :
    scheme.pattern.toList = scheme.pieces.flatMap (·.pattern.toList) := by
  simp [pattern, List.flatMap_map]

theorem Scheme.ofText?_pattern (scheme : Scheme) :
    Symbol.ofText? scheme.pattern.toList = some (scheme.pieces.flatMap Symbol.ofPiece) := by
  have read := ofText?_pieces scheme.pieces []
  rw [List.append_nil, ← scheme.toList_pattern] at read
  rw [read]
  simp [Symbol.ofText?]

/-- Read as an expression, a pattern is the expression of its scheme: each character of a
separator stands for itself. -/
theorem Scheme.ofPattern?_pattern (scheme : Scheme) :
    Expression.ofPattern? scheme.pattern = some scheme.expression := by
  have built := scheme.whole.ofSymbols?_pieces [] [] []
  rw [List.append_nil, List.append_nil] at built
  rw [Expression.ofPattern?, scheme.ofText?_pattern]
  change Expression.ofSymbols? [] [] (scheme.whole.pieces.flatMap Symbol.ofPiece) = _
  rw [built, Expression.ofSymbols?, if_pos rfl, List.reverse_reverse]
  rfl

/-! ### Tokens and separators -/

def Token.pattern (separators : List String) : Token → String
  | .opening => "(?:"
  | .closing => ")?"
  | .field index => escape (separators[index]?.getD "") ++ "([0-9]+)"

private theorem Token.map_pattern_number (separators : List String) (next : Nat)
    (pieces : List Piece)
    (known : separators.drop next = (Piece.labels pieces).map Prod.fst) :
    (Token.number next pieces).map (Token.pattern separators) = pieces.map Piece.pattern := by
  induction pieces generalizing next with
  | nil => rfl
  | cons piece pieces ih =>
      cases piece with
      | opening => exact congrArg ("(?:" :: ·) (ih next known)
      | closing => exact congrArg (")?" :: ·) (ih next known)
      | field separator name =>
          have known : separators.drop next =
              separator :: (Piece.labels pieces).map Prod.fst := known
          have here : separators[next]? = some separator := by
            rw [← List.head?_drop, known, List.head?_cons]
          have later : separators.drop (next + 1) = (Piece.labels pieces).map Prod.fst := by
            rw [← List.tail_drop, known, List.tail_cons]
          rw [Token.number, List.map_cons, List.map_cons, ih (next + 1) later, Token.pattern,
            here, Option.getD_some, Piece.pattern]

def Piece.ofSymbols? (pending : List Char) : List Symbol → Option (List Piece)
  | [] => if pending = [] then some [] else none
  | .literal c :: symbols => ofSymbols? (pending ++ [c]) symbols
  | .capture :: .digits :: .many :: .close :: symbols =>
      (ofSymbols? [] symbols).map (.field (String.ofList pending) "" :: ·)
  | .bracket :: symbols =>
      if pending = [] then (ofSymbols? [] symbols).map (.opening :: ·) else none
  | .close :: .optional :: symbols =>
      if pending = [] then (ofSymbols? [] symbols).map (.closing :: ·) else none
  | _ => none

def Piece.unnamed : Piece → Piece
  | .opening => .opening
  | .closing => .closing
  | .field separator _ => .field separator ""

private theorem Piece.ofSymbols?_literals (pending separator : List Char) (symbols : List Symbol) :
    ofSymbols? pending (separator.map .literal ++ symbols) =
      ofSymbols? (pending ++ separator) symbols := by
  induction separator generalizing pending with
  | nil => rw [List.map_nil, List.nil_append, List.append_nil]
  | cons c separator ih =>
      rw [List.map_cons, List.cons_append, ofSymbols?, ih, List.append_assoc,
        List.singleton_append]

private theorem Piece.ofSymbols?_flatMap (pieces : List Piece) :
    ofSymbols? [] (pieces.flatMap Symbol.ofPiece) = some (pieces.map unnamed) := by
  induction pieces with
  | nil => rfl
  | cons piece pieces ih =>
      rw [List.flatMap_cons, List.map_cons]
      cases piece with
      | opening =>
          change (ofSymbols? [] (pieces.flatMap Symbol.ofPiece)).map _ = _
          rw [ih]
          rfl
      | closing =>
          change (ofSymbols? [] (pieces.flatMap Symbol.ofPiece)).map _ = _
          rw [ih]
          rfl
      | field separator name =>
          rw [Symbol.ofPiece, List.append_assoc, ofSymbols?_literals]
          change (ofSymbols? [] (pieces.flatMap Symbol.ofPiece)).map _ = _
          rw [ih, List.nil_append, String.ofList_toList]
          rfl

private theorem Token.number_unnamed (next : Nat) (pieces : List Piece) :
    Token.number next (pieces.map Piece.unnamed) = Token.number next pieces := by
  induction pieces generalizing next with
  | nil => rfl
  | cons piece pieces ih =>
      cases piece with
      | opening => exact congrArg (.opening :: ·) (ih next)
      | closing => exact congrArg (.closing :: ·) (ih next)
      | field separator name => exact congrArg (.field next :: ·) (ih (next + 1))

private theorem Piece.separators_unnamed (pieces : List Piece) :
    (Piece.labels (pieces.map unnamed)).map Prod.fst = (Piece.labels pieces).map Prod.fst := by
  induction pieces with
  | nil => rfl
  | cons piece pieces ih =>
      cases piece with
      | opening => exact ih
      | closing => exact ih
      | field separator name => exact congrArg (separator :: ·) ih

def Pattern.recover? (pattern : String) : Option (List Token × List String) :=
  ((Symbol.ofText? pattern.toList).bind (Piece.ofSymbols? [])).map fun pieces =>
    (Token.number 0 pieces, (Piece.labels pieces).map Prod.fst)

namespace Scheme

def separators (scheme : Scheme) : List String :=
  scheme.fields.map Field.separator

theorem separators_eq (scheme : Scheme) :
    scheme.separators = (Piece.labels scheme.pieces).map Prod.fst := by
  rw [pieces, ← scheme.whole.map_label_fields 0, List.map_map]
  rfl

/-- A pattern is written token by token. -/
theorem pattern_eq_join (scheme : Scheme) :
    scheme.pattern = String.join (scheme.tokens.map (Token.pattern scheme.separators)) := by
  rw [tokens, Token.map_pattern_number scheme.separators 0 scheme.pieces scheme.separators_eq]
  rfl

theorem recover?_pattern (scheme : Scheme) :
    Pattern.recover? scheme.pattern = some (scheme.tokens, scheme.separators) := by
  rw [Pattern.recover?, scheme.ofText?_pattern, Option.bind_some, Piece.ofSymbols?_flatMap,
    Option.map_some, Token.number_unnamed, Piece.separators_unnamed, separators_eq]
  rfl

theorem pattern_eq_iff (one two : Scheme) :
    one.pattern = two.pattern ↔ one.tokens = two.tokens ∧ one.separators = two.separators := by
  constructor
  · intro same
    have recovered := one.recover?_pattern
    rw [same, two.recover?_pattern, Option.some.injEq, Prod.mk.injEq] at recovered
    exact ⟨recovered.1.symm, recovered.2.symm⟩
  · rintro ⟨tokens, separators⟩
    rw [one.pattern_eq_join, two.pattern_eq_join, tokens, separators]

private theorem fields_eq_of_maps {one two : List Field}
    (names : one.map Field.name = two.map Field.name)
    (separators : one.map Field.separator = two.map Field.separator)
    (depths : one.map Field.depth = two.map Field.depth) : one = two := by
  have parts (fields : List Field) :
      fields.map (fun field => (field.name, field.separator, field.depth)) =
        (fields.map Field.name).zip
          ((fields.map Field.separator).zip (fields.map Field.depth)) := by
    rw [List.zip_map', List.zip_map']
  have same : one.map (fun field => (field.name, field.separator, field.depth)) =
      two.map fun field => (field.name, field.separator, field.depth) := by
    rw [parts, parts, names, separators, depths]
  refine (List.map_inj_right ?_).mp same
  rintro ⟨⟩ ⟨⟩ equal
  cases equal
  rfl

/-- Tokens, separators and names make up the whole text of a scheme. -/
private theorem spelling_eq_of_parts {one two : Scheme} (tokens : one.tokens = two.tokens)
    (separators : one.separators = two.separators)
    (names : one.fields.map Field.name = two.fields.map Field.name) :
    one.spelling = two.spelling := by
  have depths : one.fields.map Field.depth = two.fields.map Field.depth := by
    rw [map_depth_fields, map_depth_fields, tokens]
  have fields : one.fields = two.fields := fields_eq_of_maps names separators depths
  rw [← join_map_spelling_tokens, ← join_map_spelling_tokens, tokens, fields]

/-- Definitions have the same pattern exactly if they have the same tokens and the same
separators, so they differ at most in names. Both can be read from the pattern alone, since
each character of a separator stands for itself there and only for itself. -/
theorem pattern_faithful {definition other : String} {one two : Scheme}
    (parsed : Scheme.parse definition = .ok one) (parsedOther : Scheme.parse other = .ok two) :
    (one.pattern = two.pattern ↔
      one.tokens = two.tokens ∧
        one.fields.map Field.separator = two.fields.map Field.separator) ∧
    (one.pattern = two.pattern →
      one.fields.map Field.name = two.fields.map Field.name → definition = other) ∧
    Pattern.recover? one.pattern = some (one.tokens, one.fields.map Field.separator) ∧
    Pattern.Expression.ofPattern? one.pattern = some one.expression := by
  refine ⟨pattern_eq_iff one two, ?_, one.recover?_pattern, one.ofPattern?_pattern⟩
  intro same names
  obtain ⟨tokens, separators⟩ := (pattern_eq_iff one two).mp same
  rw [← (wellFormed_of_parse parsed).2, ← (wellFormed_of_parse parsedOther).2,
    spelling_eq_of_parts tokens separators names]

/-- Separators that are spelled like the syntax of patterns. -/
theorem pattern_faithful_syntax :
    Scheme.parse "a(?:b[)?+c]" =
      .ok ⟨"a", .field "(?:" "b" (.group (.field ")?+" "c" .done) .done)⟩ ∧
    Scheme.parse "x(?:y[)?+z]" =
      .ok ⟨"x", .field "(?:" "y" (.group (.field ")?+" "z" .done) .done)⟩ ∧
    Pattern.recover?
        (Scheme.pattern ⟨"a", .field "(?:" "b" (.group (.field ")?+" "c" .done) .done)⟩) =
      some ([.field 0, .field 1, .opening, .field 2, .closing], ["", "(?:", ")?+"]) := by
  have parsed : Scheme.parse "a(?:b[)?+c]" =
      .ok ⟨"a", .field "(?:" "b" (.group (.field ")?+" "c" .done) .done)⟩ := by rfl
  have parsedOther : Scheme.parse "x(?:y[)?+z]" =
      .ok ⟨"x", .field "(?:" "y" (.group (.field ")?+" "z" .done) .done)⟩ := by rfl
  exact ⟨parsed, parsedOther, (pattern_faithful parsed parsedOther).2.2.1⟩

end Scheme

end Versioning
