import Versioning.Proofs.Scheme.Parsing
import Versioning.Scheme.Cache

/-!
The token stream of a scheme.

Tokens number the fields from left to right, so a token stands for the separator
and the name of its field, and writing all tokens down gives the scheme's text
again. Main statement: parsing accepts exactly the spellings of well-formed
schemes, and its fields and tokens are those of the text.
-/

namespace Versioning

/-! ### Numbering -/

theorem Body.length_names (body : Body) :
    (Piece.names body.pieces).length = body.fieldCount := by
  rw [← body.map_name_fields 0, List.length_map, body.length_fields 0]

theorem Token.filterMap_index?_number (next : Nat) (pieces : List Piece) :
    (Token.number next pieces).filterMap Token.index? =
      List.range' next (Piece.names pieces).length := by
  induction pieces generalizing next with
  | nil => rfl
  | cons piece pieces ih =>
      cases piece with
      | opening => exact ih next
      | closing => exact ih next
      | field separator name =>
          change next :: (Token.number (next + 1) pieces).filterMap Token.index? =
            List.range' next ((Piece.names pieces).length + 1)
          rw [ih (next + 1), List.range'_succ]

/-! ### Spelling -/

def Piece.label? : Piece → Option (String × String)
  | .field separator name => some (separator, name)
  | _ => none

def Piece.labels (pieces : List Piece) : List (String × String) :=
  pieces.filterMap Piece.label?

theorem Piece.labels_append (front back : List Piece) :
    Piece.labels (front ++ back) = Piece.labels front ++ Piece.labels back :=
  List.filterMap_append

def Field.label (field : Field) : String × String :=
  (field.separator, field.name)

def Token.spelling (fields : List Field) : Token → String
  | .opening => "["
  | .closing => "]"
  | .field index => (fields[index]?.map fun field => field.separator ++ field.name).getD ""

theorem Body.map_label_fields (body : Body) (depth : Nat) :
    (body.fields depth).map Field.label = Piece.labels body.pieces := by
  induction body generalizing depth with
  | done => rfl
  | field separator name rest ih =>
      rw [Body.fields, List.map_cons, ih]
      rfl
  | group inner rest ihInner ihRest =>
      rw [Body.fields, List.map_append, ihInner, ihRest, Body.pieces]
      exact (Piece.labels_append inner.pieces (.closing :: rest.pieces)).symm

/-- Tokens are written as the pieces they number, if the fields from `next` on
have the pieces' labels. -/
private theorem Token.map_spelling_number (fields : List Field) (next : Nat)
    (pieces : List Piece)
    (labels : (fields.drop next).map Field.label = Piece.labels pieces) :
    (Token.number next pieces).map (Token.spelling fields) =
      pieces.map Piece.spelling := by
  induction pieces generalizing next with
  | nil => rfl
  | cons piece pieces ih =>
      cases piece with
      | opening => exact congrArg ("[" :: ·) (ih next labels)
      | closing => exact congrArg ("]" :: ·) (ih next labels)
      | field separator name =>
          have labels : (fields.drop next).map Field.label =
              (separator, name) :: Piece.labels pieces := labels
          cases present : fields.drop next with
          | nil =>
              rw [present] at labels
              cases labels
          | cons field others =>
              rw [present, List.map_cons, List.cons.injEq] at labels
              have here : fields[next]? = some field := by
                rw [← List.head?_drop, present, List.head?_cons]
              have later : fields.drop (next + 1) = others := by
                rw [← List.tail_drop, present, List.tail_cons]
              have separatorEq : field.separator = separator := congrArg Prod.fst labels.1
              have nameEq : field.name = name := congrArg Prod.snd labels.1
              rw [Token.number, List.map_cons, List.map_cons,
                ih (next + 1) (by rw [later]; exact labels.2)]
              simp [Token.spelling, Piece.spelling, here, separatorEq, nameEq]

/-! ### Depths -/

/-- The number of groups that are open at each field, from left to right, when
`depth` groups are open already. -/
def Token.depths (depth : Nat) : List Token → List Nat
  | [] => []
  | .opening :: tokens => depths (depth + 1) tokens
  | .closing :: tokens => depths (depth - 1) tokens
  | .field _ :: tokens => depth :: depths depth tokens

theorem Body.depths_number (body : Body) (depth next : Nat) (following : List Piece) :
    Token.depths depth (Token.number next (body.pieces ++ following)) =
      (body.fields depth).map Field.depth ++
        Token.depths depth (Token.number (next + body.fieldCount) following) := by
  induction body generalizing depth next following with
  | done => rfl
  | field separator name rest ih =>
      have index : next + (rest.fieldCount + 1) = next + 1 + rest.fieldCount := by omega
      change depth :: Token.depths depth (Token.number (next + 1) (rest.pieces ++ following)) =
        depth :: ((rest.fields depth).map Field.depth ++
          Token.depths depth (Token.number (next + (rest.fieldCount + 1)) following))
      rw [ih, index]
  | group inner rest ihInner ihRest =>
      have pieces : (Body.group inner rest).pieces ++ following =
          .opening :: (inner.pieces ++ .closing :: (rest.pieces ++ following)) := by
        simp [Body.pieces]
      have index : next + (inner.fieldCount + rest.fieldCount) =
          next + inner.fieldCount + rest.fieldCount := by omega
      rw [pieces, Token.number, Token.depths, ihInner, Token.number, Token.depths,
        Nat.add_sub_cancel, ihRest, Body.fields, List.map_append, Body.fieldCount, index,
        List.append_assoc]

/-! ### The tokens and fields of a scheme -/

namespace Scheme

theorem join_map_spelling_tokens (scheme : Scheme) :
    String.join (scheme.tokens.map (Token.spelling scheme.fields)) = scheme.spelling := by
  rw [tokens, spelling, Token.map_spelling_number]
  exact scheme.whole.map_label_fields 0

theorem filterMap_index?_tokens (scheme : Scheme) :
    scheme.tokens.filterMap Token.index? = List.range scheme.fields.length := by
  rw [tokens, Token.filterMap_index?_number, List.range_eq_range', length_fields]
  exact congrArg (List.range' 0) scheme.whole.length_names

theorem map_depth_fields (scheme : Scheme) :
    scheme.fields.map Field.depth = Token.depths 0 scheme.tokens := by
  have depths := scheme.whole.depths_number 0 0 []
  rw [List.append_nil] at depths
  exact (List.append_nil _).symm.trans depths.symm

theorem ofDefinition_eq_ok_iff (definition : String) (scheme : Scheme) :
    Scheme.ofDefinition definition = .ok scheme ↔ Scheme.compile definition = .ok scheme := by
  unfold Scheme.ofDefinition
  cases Scheme.compile definition with
  | ok compiled => simp
  | error fault => simp

/-- A definition that is no scheme is reported as malformed. -/
private theorem ofDefinition_of_parse_error (definition : String) (fault : SchemeFault)
    (refused : Scheme.parse definition = .error fault) :
    Scheme.ofDefinition definition = .error (.malformedScheme definition fault) := by
  have notCompiled : Scheme.compile definition = .error fault := by
    rw [Scheme.compile, refused]
    rfl
  rw [Scheme.ofDefinition, notCompiled]

theorem wellFormed_of_compile {definition : String} {scheme : Scheme}
    (compiled : Scheme.compile definition = .ok scheme) : scheme.WellFormed := by
  obtain ⟨parsed, read, accepted⟩ := bind_eq_ok.mp compiled
  split at accepted
  · have same : scheme = parsed := pure_eq_ok.mp accepted
    subst same
    exact (wellFormed_of_parse read).1
  · cases accepted

/-- Parsing accepts exactly the spellings of well-formed schemes. The answer is
spelled as the text; its tokens, written down through its fields, are the text
again; they number the fields in order; and the depth of a field is the number
of groups open at its token, which is zero for the required ones. Every other
text is reported as malformed. -/
theorem parse_exact (text : String) :
    (∀ scheme, Scheme.parse text = .ok scheme ↔
      scheme.WellFormed ∧ scheme.spelling = text) ∧
    (∀ scheme, Scheme.parse text = .ok scheme →
      String.join (scheme.tokens.map (Token.spelling scheme.fields)) = text ∧
      scheme.tokens.filterMap Token.index? = List.range scheme.fields.length ∧
      scheme.fields.map Field.depth = Token.depths 0 scheme.tokens ∧
      ∀ field ∈ scheme.fields, field.required = true ↔ field.depth = 0) ∧
    ((¬ ∃ scheme : Scheme, scheme.WellFormed ∧ scheme.spelling = text) →
      ∃ fault, Scheme.parse text = .error fault ∧
        Scheme.ofDefinition text = .error (.malformedScheme text fault)) := by
  refine ⟨parse_eq_ok_iff text, ?_, ?_⟩
  · intro scheme parsed
    have spelled := (wellFormed_of_parse parsed).2
    refine ⟨?_, scheme.filterMap_index?_tokens, scheme.map_depth_fields, ?_⟩
    · rw [join_map_spelling_tokens, spelled]
    · intro field _
      exact beq_iff_eq
  · intro unspelled
    cases parsed : Scheme.parse text with
    | ok scheme => exact absurd ⟨scheme, wellFormed_of_parse parsed⟩ unspelled
    | error fault => exact ⟨fault, rfl, ofDefinition_of_parse_error text fault parsed⟩

end Scheme

end Versioning
