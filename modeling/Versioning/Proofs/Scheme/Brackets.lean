import Versioning.Proofs.Scheme.Tokens

/-!
Brackets and places in the token stream of a scheme.

The brackets of a scheme match, fields are numbered from left to right, and every
group holds a field. So the first field at or after an opening bracket is the first
one of its group, and it stands in front of the bracket that closes the group.
-/

namespace Versioning

/-! ### Matching brackets -/

namespace Token

def unclosed (tokens : List Token) : Int :=
  tokens.count .opening - tokens.count .closing

@[simp] theorem unclosed_nil : unclosed [] = 0 := rfl

@[simp] theorem unclosed_opening (tokens : List Token) :
    unclosed (.opening :: tokens) = unclosed tokens + 1 := by
  simp [unclosed]
  omega

@[simp] theorem unclosed_closing (tokens : List Token) :
    unclosed (.closing :: tokens) = unclosed tokens - 1 := by
  simp [unclosed]
  omega

@[simp] theorem unclosed_field (index : Nat) (tokens : List Token) :
    unclosed (.field index :: tokens) = unclosed tokens := by
  simp [unclosed]

@[simp] theorem unclosed_append (front back : List Token) :
    unclosed (front ++ back) = unclosed front + unclosed back := by
  simp only [unclosed, List.count_append]
  omega

/-- No stretch from the start closes more groups than it opens, and in the end all
groups are closed. -/
structure Balanced (tokens : List Token) : Prop where
  nested : ∀ length, 0 ≤ unclosed (tokens.take length)
  closed : unclosed tokens = 0

/-- The brackets at two places are the two ends of one group. -/
structure Encloses (tokens : List Token) (start stop : Nat) : Prop where
  before : start < stop
  opening : tokens[start]? = some .opening
  closing : tokens[stop]? = some .closing
  inside : Balanced ((tokens.take stop).drop (start + 1))

private theorem balanced_nil : Balanced [] where
  nested := by simp
  closed := rfl

private theorem Balanced.field {tokens : List Token} (balanced : Balanced tokens) (index : Nat) :
    Balanced (.field index :: tokens) where
  nested := by
    intro length
    cases length with
    | zero => simp
    | succ length => simpa using balanced.nested length
  closed := by simpa using balanced.closed

private theorem Balanced.group {inner rest : List Token} (balancedInner : Balanced inner)
    (balancedRest : Balanced rest) : Balanced (.opening :: (inner ++ .closing :: rest)) where
  nested := by
    intro length
    cases length with
    | zero => simp
    | succ length =>
        have front := balancedInner.nested length
        rw [List.take_succ_cons, List.take_append, unclosed_opening, unclosed_append]
        cases length - inner.length with
        | zero =>
            rw [List.take_zero, unclosed_nil]
            omega
        | succ more =>
            have back := balancedRest.nested more
            rw [List.take_succ_cons, unclosed_closing]
            omega
  closed := by simp [balancedInner.closed, balancedRest.closed]

/-- An opening bracket is closed in one place only: a stretch that runs past it closes
one group too many. -/
theorem Encloses.unique {tokens : List Token} {start stop other : Nat}
    (first : Encloses tokens start stop) (second : Encloses tokens start other) :
    stop = other := by
  have apart {near far : Nat} (one : Encloses tokens start near)
      (two : Encloses tokens start far) : ¬ near < far := by
    intro less
    have after := one.before
    have bound : near < tokens.length := (List.getElem?_eq_some_iff.mp one.closing).1
    have stretch : ((tokens.take far).drop (start + 1)).take (near + 1 - (start + 1)) =
        (tokens.take near).drop (start + 1) ++ [.closing] := by
      rw [List.take_drop, Nat.add_sub_cancel' (by omega), List.take_take,
        Nat.min_eq_left (by omega), List.take_add_one, one.closing, List.drop_append,
        List.length_take, Nat.min_eq_left (by omega)]
      simp [show start + 1 - near = 0 by omega]
    have nested := two.inside.nested (near + 1 - (start + 1))
    rw [stretch, unclosed_append, one.inside.closed] at nested
    simp at nested
  have notLess := apart first second
  have notMore := apart second first
  omega

/-! ### Numbers and places -/

private theorem number_append (next : Nat) (front back : List Piece) :
    number next (front ++ back) =
      number next front ++ number (next + (Piece.names front).length) back := by
  induction front generalizing next with
  | nil => rfl
  | cons piece front ih =>
      cases piece with
      | opening => exact congrArg (.opening :: ·) (ih next)
      | closing => exact congrArg (.closing :: ·) (ih next)
      | field separator name =>
          have count : next + ((Piece.names front).length + 1) =
              next + 1 + (Piece.names front).length := by omega
          change .field next :: number (next + 1) (front ++ back) =
            .field next :: (number (next + 1) front ++
              number (next + ((Piece.names front).length + 1)) back)
          rw [ih, count]

private theorem drop_number (next position : Nat) (pieces : List Piece) :
    (number next pieces).drop position =
      number (next + (Piece.names (pieces.take position)).length) (pieces.drop position) := by
  induction pieces generalizing next position with
  | nil => simp [number]
  | cons piece pieces ih =>
      cases position with
      | zero => rfl
      | succ position =>
          cases piece with
          | opening => exact ih next position
          | closing => exact ih next position
          | field separator name =>
              have count : next + ((Piece.names (pieces.take position)).length + 1) =
                  next + 1 + (Piece.names (pieces.take position)).length := by omega
              change (number (next + 1) pieces).drop position =
                number (next + ((Piece.names (pieces.take position)).length + 1))
                  (pieces.drop position)
              rw [ih, count]

private theorem firstField_eq_head? (tokens : List Token) :
    firstField tokens = (tokens.filterMap index?).head? :=
  List.head?_filterMap.symm

private theorem firstField_number {pieces : List Piece} (holding : Piece.names pieces ≠ [])
    (next : Nat) : firstField (number next pieces) = some next := by
  have some : (Piece.names pieces).length ≠ 0 := by simpa using holding
  rw [firstField_eq_head?, filterMap_index?_number, List.head?_range', if_neg some]

private theorem mem_filterMap_index? {tokens : List Token} {index : Nat} :
    index ∈ tokens.filterMap index? ↔ .field index ∈ tokens := by
  rw [List.mem_filterMap]
  constructor
  · rintro ⟨token, member, same⟩
    cases token with
    | opening | closing => cases same
    | field other =>
        cases same
        exact member
  · intro member
    exact ⟨.field index, member, rfl⟩

/-- Among tokens whose fields are numbered upwards the first field is the smallest. -/
theorem firstField_eq_some_iff {tokens : List Token}
    (upwards : (tokens.filterMap index?).Pairwise (· < ·)) (index : Nat) :
    firstField tokens = some index ↔
      .field index ∈ tokens ∧ ∀ other, .field other ∈ tokens → index ≤ other := by
  rw [firstField_eq_head?]
  simp only [← mem_filterMap_index?]
  cases numbers : tokens.filterMap index? with
  | nil => simp
  | cons first later =>
      rw [numbers] at upwards
      have least := (List.pairwise_cons.mp upwards).1
      rw [List.head?_cons, Option.some.injEq]
      constructor
      · rintro rfl
        refine ⟨List.mem_cons_self, fun other member => ?_⟩
        rcases List.mem_cons.mp member with rfl | behind
        · exact Nat.le_refl _
        · exact Nat.le_of_lt (least other behind)
      · rintro ⟨member, smallest⟩
        have below := smallest first List.mem_cons_self
        rcases List.mem_cons.mp member with rfl | behind
        · rfl
        · exact absurd (least index behind) (Nat.not_lt.mpr below)

theorem firstField_eq_none_iff {tokens : List Token} :
    firstField tokens = none ↔ ∀ index, .field index ∉ tokens := by
  rw [firstField_eq_head?, List.head?_eq_none_iff, List.eq_nil_iff_forall_not_mem]
  simp only [mem_filterMap_index?]

private theorem mem_drop_iff {tokens : List Token} {token : Token} {position : Nat} :
    token ∈ tokens.drop position ↔ ∃ place, position ≤ place ∧ tokens[place]? = some token := by
  rw [List.mem_iff_getElem?]
  constructor
  · rintro ⟨offset, present⟩
    rw [List.getElem?_drop] at present
    exact ⟨position + offset, Nat.le_add_right _ _, present⟩
  · rintro ⟨place, behind, present⟩
    refine ⟨place - position, ?_⟩
    rwa [List.getElem?_drop, Nat.add_sub_cancel' behind]

/-- As long as no group is closed that was not opened, the depth of a field counts the
groups that are open at its token. -/
theorem getElem?_depths {next depth position index : Nat} {pieces : List Piece}
    (nested : ∀ length, 0 ≤ depth + unclosed ((number next pieces).take length))
    (present : (number next pieces)[position]? = some (.field index)) :
    next ≤ index ∧ ∃ level : Nat,
      (depths depth (number next pieces))[index - next]? = some level ∧
        (level : Int) = depth + unclosed ((number next pieces).take position) := by
  induction pieces generalizing next depth position with
  | nil => cases present
  | cons piece pieces ih =>
      cases piece with
      | opening =>
          cases position with
          | zero => cases present
          | succ position =>
              have later : ∀ length,
                  0 ≤ ((depth + 1 : Nat) : Int) + unclosed ((number next pieces).take length) := by
                intro length
                have bound := nested (length + 1)
                rw [number, List.take_succ_cons, unclosed_opening] at bound
                omega
              obtain ⟨behind, level, deep, counted⟩ := ih later present
              refine ⟨behind, level, deep, ?_⟩
              rw [number, List.take_succ_cons, unclosed_opening]
              omega
      | closing =>
          cases position with
          | zero => cases present
          | succ position =>
              have inGroup := nested 1
              rw [number, List.take_succ_cons, List.take_zero, unclosed_closing,
                unclosed_nil] at inGroup
              have later : ∀ length,
                  0 ≤ ((depth - 1 : Nat) : Int) + unclosed ((number next pieces).take length) := by
                intro length
                have bound := nested (length + 1)
                rw [number, List.take_succ_cons, unclosed_closing] at bound
                omega
              obtain ⟨behind, level, deep, counted⟩ := ih later present
              refine ⟨behind, level, deep, ?_⟩
              rw [number, List.take_succ_cons, unclosed_closing]
              omega
      | field separator name =>
          cases position with
          | zero =>
              cases present
              exact ⟨Nat.le_refl _, depth, by simp [number, depths], by simp⟩
          | succ position =>
              have later : ∀ length,
                  0 ≤ (depth : Int) + unclosed ((number (next + 1) pieces).take length) := by
                intro length
                have bound := nested (length + 1)
                rwa [number, List.take_succ_cons, unclosed_field] at bound
              obtain ⟨behind, level, deep, counted⟩ := ih later present
              refine ⟨by omega, level, ?_, ?_⟩
              · have offset : index - next = index - (next + 1) + 1 := by omega
                rw [number, depths, offset]
                exact deep
              · rw [number, List.take_succ_cons, unclosed_field]
                exact counted

end Token

/-! ### Bodies -/

namespace Body

theorem balanced_number (body : Body) (next : Nat) :
    Token.Balanced (Token.number next body.pieces) := by
  induction body generalizing next with
  | done => exact Token.balanced_nil
  | field separator name rest ih => exact (ih (next + 1)).field next
  | group inner rest ihInner ihRest =>
      have tokens : Token.number next (Body.group inner rest).pieces =
          .opening :: (Token.number next inner.pieces ++ .closing ::
            Token.number (next + (Piece.names inner.pieces).length) rest.pieces) := by
        rw [Body.pieces, Token.number, Token.number_append, Token.number]
      rw [tokens]
      exact (ihInner next).group (ihRest _)

private theorem WellFormed.names_ne_nil {body : Body} (formed : body.WellFormed)
    (holding : body ≠ .done) : Piece.names body.pieces ≠ [] := by
  have some := formed.fieldCount_pos holding
  rw [← body.length_names] at some
  exact List.ne_nil_of_length_pos some

private theorem WellFormed.separator_of_mem {body : Body} (formed : body.WellFormed) {depth : Nat}
    {field : Field} (member : field ∈ body.fields depth) : IsSeparator field.separator := by
  induction formed generalizing depth with
  | done => cases member
  | field isSeparator isName formedRest ih =>
      rcases List.mem_cons.mp member with rfl | later
      · exact isSeparator
      · exact ih later
  | group holding formedInner formedRest ihInner ihRest =>
      rcases List.mem_append.mp member with inside | behind
      · exact ihInner inside
      · exact ihRest behind

/-- Behind an opening bracket stand the pieces of its group and then the bracket that
closes it. -/
private theorem WellFormed.group_at {body : Body} (formed : body.WellFormed)
    {front back : List Piece} (split : body.pieces = front ++ .opening :: back) :
    ∃ (inner : Body) (after : List Piece), inner.WellFormed ∧ inner ≠ .done ∧
      back = inner.pieces ++ .closing :: after := by
  induction formed generalizing front back with
  | done => simp [pieces] at split
  | @field separator name rest isSeparator isName formedRest ih =>
      cases front with
      | nil => cases split
      | cons first front =>
          exact ih (List.cons.inj split).2
  | @group inner rest holding formedInner formedRest ihInner ihRest =>
      cases front with
      | nil => exact ⟨inner, rest.pieces, formedInner, holding, (List.cons.inj split).2.symm⟩
      | cons first front =>
          have behind : inner.pieces ++ .closing :: rest.pieces = front ++ .opening :: back :=
            (List.cons.inj split).2
          rcases List.append_eq_append_iff.mp behind with
            ⟨past, rfl, later⟩ | ⟨within, whole, later⟩
          · -- The bracket stands behind the group, or it is the one that closes it.
            cases past with
            | nil => cases later
            | cons _ past => exact ihRest (List.cons.inj later).2
          · cases within with
            | nil => cases later
            | cons _ within =>
                rw [List.cons_append] at later
                obtain ⟨same, follows⟩ := List.cons.inj later
                subst same
                obtain ⟨nested, after, formedNested, holds, rfl⟩ := ihInner whole
                refine ⟨nested, after ++ .closing :: rest.pieces, formedNested, holds, ?_⟩
                rw [follows, List.append_assoc, List.cons_append]

end Body

/-! ### The tokens of a scheme -/

def Token.IsFirst (tokens : List Token) (places : Nat → Prop) (index : Nat) : Prop :=
  (∃ place, places place ∧ tokens[place]? = some (.field index)) ∧
    ∀ place other, places place → tokens[place]? = some (.field other) → index ≤ other

namespace Scheme

structure TokenInvariant (scheme : Scheme) : Prop where
  /-- The fields are numbered in order, and there is one at least. -/
  numbered : scheme.tokens.filterMap Token.index? = List.range scheme.fields.length
  holding : 1 ≤ scheme.fields.length
  lead : scheme.tokens.head? = some (.field 0) ∧
    ∃ field, scheme.fields[0]? = some field ∧ field.separator = "" ∧ field.depth = 0
  separators : ∀ index field, scheme.fields[index + 1]? = some field →
    field.separator ≠ "" ∧
      ∀ c ∈ field.separator.toList, c.isDigit = false ∧ c ≠ '[' ∧ c ≠ ']'
  balanced : Token.Balanced scheme.tokens
  /-- The depth of a field is the number of groups that are open at its token. -/
  depths : ∀ position index, scheme.tokens[position]? = some (.field index) →
    ∃ field, scheme.fields[index]? = some field ∧
      (field.depth : Int) = Token.unclosed (scheme.tokens.take position)
  /-- The first field from an opening bracket on is the first one of its group. -/
  groups : ∀ start, scheme.tokens[start]? = some .opening →
    ∃ stop index, Token.Encloses scheme.tokens start stop ∧
      (∀ other, Token.Encloses scheme.tokens start other → other = stop) ∧
      scheme.firstFieldFrom? start = some (some index) ∧
      Token.IsFirst scheme.tokens (fun place => start < place ∧ place < stop) index
  /-- At every place, the end included, the first field from there on is found. -/
  found : ∀ position, position ≤ scheme.tokens.length →
    (∀ index, scheme.firstFieldFrom? position = some (some index) ↔
      Token.IsFirst scheme.tokens (position ≤ ·) index) ∧
    (scheme.firstFieldFrom? position = some none ↔
      ∀ place index, position ≤ place → scheme.tokens[place]? ≠ some (.field index))

private theorem firstFieldFrom?_of_le {scheme : Scheme} {position : Nat}
    (within : position ≤ scheme.tokens.length) :
    scheme.firstFieldFrom? position = some (Token.firstField (scheme.tokens.drop position)) :=
  if_pos within

private theorem isFirst_from_iff (scheme : Scheme) (position index : Nat) :
    Token.firstField (scheme.tokens.drop position) = some index ↔
      Token.IsFirst scheme.tokens (position ≤ ·) index := by
  have upwards : ((scheme.tokens.drop position).filterMap Token.index?).Pairwise (· < ·) := by
    refine List.Pairwise.sublist ((List.drop_sublist position _).filterMap Token.index?) ?_
    rw [filterMap_index?_tokens]
    exact List.pairwise_lt_range
  rw [Token.firstField_eq_some_iff upwards, Token.mem_drop_iff, Token.IsFirst]
  refine and_congr_right fun _ => ⟨fun least place other behind present => ?_,
    fun least other member => ?_⟩
  · exact least other (Token.mem_drop_iff.mpr ⟨place, behind, present⟩)
  · obtain ⟨place, behind, present⟩ := Token.mem_drop_iff.mp member
    exact least place other behind present

private theorem firstField_eq_none_iff_place (scheme : Scheme) (position : Nat) :
    Token.firstField (scheme.tokens.drop position) = none ↔
      ∀ place index, position ≤ place → scheme.tokens[place]? ≠ some (.field index) := by
  rw [Token.firstField_eq_none_iff]
  constructor
  · intro none place index behind present
    exact none index (Token.mem_drop_iff.mpr ⟨place, behind, present⟩)
  · intro none index member
    obtain ⟨place, behind, present⟩ := Token.mem_drop_iff.mp member
    exact none place index behind present

theorem balanced_tokens (scheme : Scheme) : Token.Balanced scheme.tokens :=
  scheme.whole.balanced_number 0

private theorem exists_depth_eq_unclosed {scheme : Scheme} {position index : Nat}
    (present : scheme.tokens[position]? = some (.field index)) :
    ∃ field, scheme.fields[index]? = some field ∧
      (field.depth : Int) = Token.unclosed (scheme.tokens.take position) := by
  have nested : ∀ length, 0 ≤ ((0 : Nat) : Int) +
      Token.unclosed ((Token.number 0 scheme.pieces).take length) := by
    intro length
    rw [Int.natCast_zero, Int.zero_add]
    exact scheme.balanced_tokens.nested length
  obtain ⟨_, level, deep, counted⟩ := Token.getElem?_depths nested present
  have depths : (scheme.fields.map Field.depth)[index]? = some level := by
    rw [map_depth_fields]
    exact deep
  rw [List.getElem?_map] at depths
  obtain ⟨field, known, rfl⟩ := Option.map_eq_some_iff.mp depths
  refine ⟨field, known, ?_⟩
  rw [counted, Int.natCast_zero, Int.zero_add]
  rfl

namespace WellFormed

variable {scheme : Scheme} (formed : scheme.WellFormed)
include formed

private theorem separator_of_getElem? {index : Nat} {field : Field}
    (present : scheme.fields[index + 1]? = some field) : IsSeparator field.separator :=
  formed.body.separator_of_mem (List.mem_of_getElem? present)

/-- What stands behind an opening bracket: the tokens of its group, then the bracket that
closes it. -/
private theorem exists_group {start : Nat} (opens : scheme.tokens[start]? = some .opening) :
    ∃ (inner : Body) (next : Nat) (after : List Token), inner.WellFormed ∧ inner ≠ .done ∧
      scheme.tokens.drop (start + 1) =
        Token.number next inner.pieces ++ .closing :: after := by
  rw [← List.head?_drop, tokens, Token.drop_number] at opens
  cases remaining : scheme.pieces.drop start with
  | nil =>
      rw [remaining] at opens
      cases opens
  | cons piece back =>
      rw [remaining] at opens
      cases piece with
      | closing | field separator name => cases opens
      | opening =>
          have split : scheme.pieces.take start ++ .opening :: back = scheme.pieces := by
            rw [← remaining, List.take_append_drop]
          -- The leading field comes first, so the bracket belongs to the body behind it.
          cases front : scheme.pieces.take start with
          | nil =>
              rw [front] at split
              cases split
          | cons lead front =>
              rw [front] at split
              obtain ⟨inner, after, formedInner, holding, rfl⟩ :=
                formed.body.group_at (List.cons.inj split).2.symm
              have later : scheme.pieces.drop (start + 1) =
                  inner.pieces ++ .closing :: after := by
                rw [← List.tail_drop, remaining, List.tail_cons]
              have behind := Token.drop_number 0 (start + 1) scheme.pieces
              rw [later, Token.number_append, Token.number] at behind
              exact ⟨inner, _, _, formedInner, holding, behind⟩

/-- The bracket that closes a group, and the first field in the group. -/
theorem exists_encloses {start : Nat} (opens : scheme.tokens[start]? = some .opening) :
    ∃ stop index, Token.Encloses scheme.tokens start stop ∧
      scheme.firstFieldFrom? start = some (some index) ∧
      Token.IsFirst scheme.tokens (fun place => start < place ∧ place < stop) index := by
  obtain ⟨inner, next, after, formedInner, holding, behind⟩ := formed.exists_group opens
  have within := (List.getElem?_eq_some_iff.mp opens).1
  have here : scheme.tokens.drop start = .opening :: scheme.tokens.drop (start + 1) := by
    rw [List.drop_eq_getElem_cons within, (List.getElem?_eq_some_iff.mp opens).2]
  have first := Token.firstField_number (formedInner.names_ne_nil holding) next
  have found : Token.firstField (scheme.tokens.drop start) = some next := by
    rw [here, behind]
    change (Token.number next inner.pieces ++ .closing :: after).findSome? Token.index? = _
    rw [List.findSome?_append]
    exact congrArg (Option.or · _) first
  have least := (scheme.isFirst_from_iff start next).mp found
  obtain ⟨offset, present⟩ := List.mem_iff_getElem?.mp
    (Token.mem_filterMap_index?.mp (List.mem_of_head? (Token.firstField_eq_head? _ ▸ first)))
  have bound := (List.getElem?_eq_some_iff.mp present).1
  have stretch : (scheme.tokens.drop (start + 1)).take (Token.number next inner.pieces).length =
      Token.number next inner.pieces := by
    rw [behind, List.take_left]
  refine ⟨start + 1 + (Token.number next inner.pieces).length, next, ⟨?_, opens, ?_, ?_⟩, ?_,
    ⟨start + 1 + offset, ?_, ?_⟩, ?_⟩
  · omega
  · rw [← List.getElem?_drop, behind, List.getElem?_append_right (Nat.le_refl _), Nat.sub_self]
    rfl
  · rw [← List.take_drop, stretch]
    exact inner.balanced_number next
  · rw [firstFieldFrom?_of_le (Nat.le_of_lt within), found]
  · omega
  · rw [← List.getElem?_drop, behind, List.getElem?_append_left bound, present]
  · intro place other between present
    exact least.2 place other (Nat.le_of_lt between.1) present

end WellFormed

/-- The tokens of every scheme that is read keep to the invariant. -/
theorem tokenInvariant_of_parse {definition : String} {scheme : Scheme}
    (parsed : Scheme.parse definition = .ok scheme) : scheme.TokenInvariant := by
  have formed := (wellFormed_of_parse parsed).1
  refine {
    numbered := scheme.filterMap_index?_tokens
    holding := Nat.succ_le_succ (Nat.zero_le _)
    lead := ⟨rfl, _, rfl, rfl, rfl⟩
    separators := ?_
    balanced := scheme.balanced_tokens
    depths := fun _ _ => exists_depth_eq_unclosed
    groups := ?_
    found := ?_ }
  · intro index field present
    have isSeparator := formed.separator_of_getElem? present
    refine ⟨?_, fun c member => ?_⟩
    · intro empty
      exact isSeparator.1 (by rw [empty]; rfl)
    · have mark := isSeparator.2 c member
      exact ⟨isDigit_eq_false_of_isMarkChar c mark, ((isMarkChar_iff c).mp mark).2⟩
  · intro start opens
    obtain ⟨stop, index, encloses, found, first⟩ := formed.exists_encloses opens
    exact ⟨stop, index, encloses, fun _ other => other.unique encloses, found, first⟩
  · intro position within
    rw [firstFieldFrom?_of_le within]
    simp only [Option.some.injEq]
    exact ⟨scheme.isFirst_from_iff position, scheme.firstField_eq_none_iff_place position⟩

/-- A group that starts with a group, and one behind it. -/
theorem tokenInvariant_nested :
    Scheme.parse "a[[.b]-c][+d]" =
      .ok ⟨"a", .group (.group (.field "." "b" .done) (.field "-" "c" .done))
        (.group (.field "+" "d" .done) .done)⟩ ∧
    Scheme.TokenInvariant
      ⟨"a", .group (.group (.field "." "b" .done) (.field "-" "c" .done))
        (.group (.field "+" "d" .done) .done)⟩ := by
  have parsed : Scheme.parse "a[[.b]-c][+d]" =
      .ok ⟨"a", .group (.group (.field "." "b" .done) (.field "-" "c" .done))
        (.group (.field "+" "d" .done) .done)⟩ := by rfl
  exact ⟨parsed, tokenInvariant_of_parse parsed⟩

end Scheme

end Versioning
