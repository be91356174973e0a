import Versioning.Proofs.Version.RoundTrip

/-!
Which fields a rendered version shows.

A group is told by the numbers of its fields. A version shows exactly the fields all of
whose groups start before the cut, whatever else is nested in them. On the tokens this is
one walk with a counter, which counts the open groups that start at or after the cut.
-/

namespace Versioning

/-! ### Groups -/

/-- A field is shown if every group around it starts with a field before the cut. -/
def Shown (groups : List (List Nat)) (cut index : Nat) : Prop :=
  ∀ group ∈ groups, index ∈ group → ∀ first ∈ group.head?, first < cut

instance (groups : List (List Nat)) (cut index : Nat) : Decidable (Shown groups cut index) :=
  inferInstanceAs (Decidable (∀ group ∈ groups, index ∈ group →
    ∀ first ∈ group.head?, first < cut))

private theorem shown_cons_iff {group : List Nat} {groups : List (List Nat)} {cut index : Nat} :
    Shown (group :: groups) cut index ↔
      (index ∈ group → ∀ first ∈ group.head?, first < cut) ∧ Shown groups cut index :=
  List.forall_mem_cons

private theorem shown_append_iff {groups others : List (List Nat)} {cut index : Nat} :
    Shown (groups ++ others) cut index ↔
      Shown groups cut index ∧ Shown others cut index :=
  List.forall_mem_append

theorem shown_of_not_mem {groups : List (List Nat)} {cut index : Nat}
    (outside : ∀ group ∈ groups, index ∉ group) : Shown groups cut index :=
  fun group member inside => absurd inside (outside group member)

private theorem exists_head?_of_mem {group : List Nat} {index : Nat} (inside : index ∈ group) :
    ∃ first, first ∈ group.head? := by
  cases group with
  | nil => cases inside
  | cons first others => exact ⟨first, rfl⟩

namespace Body

/-- The groups of a body, the outer ones first. Each is the list of the numbers of its
fields at any depth, when the first field of the body has the number `next`. -/
def groups : Body → Nat → List (List Nat)
  | .done, _ => []
  | .field _ _ rest, next => rest.groups (next + 1)
  | .group inner rest, next =>
      List.range' next inner.fieldCount ::
        (inner.groups next ++ rest.groups (next + inner.fieldCount))

theorem bounds_of_mem_groups {body : Body} {next index : Nat} {group : List Nat}
    (known : group ∈ body.groups next) (inside : index ∈ group) :
    next ≤ index ∧ index < next + body.fieldCount := by
  induction body generalizing next with
  | done => cases known
  | field separator name rest ih =>
      have bounds := ih known
      rw [fieldCount]
      omega
  | group inner rest ihInner ihRest =>
      rw [fieldCount]
      rcases List.mem_cons.mp known with rfl | nested
      · rw [List.mem_range'_1] at inside
        omega
      · rcases List.mem_append.mp nested with before | after
        · have bounds := ihInner before
          omega
        · have bounds := ihRest after
          omega

private theorem head_le_of_mem_groups {body : Body} {next first index : Nat} {group : List Nat}
    (known : group ∈ body.groups next) (starts : first ∈ group.head?) (inside : index ∈ group) :
    first ≤ index := by
  induction body generalizing next with
  | done => cases known
  | field separator name rest ih => exact ih known
  | group inner rest ihInner ihRest =>
      rcases List.mem_cons.mp known with rfl | nested
      · rw [List.mem_range'_1] at inside
        rw [List.head?_range', if_neg (by omega)] at starts
        cases starts
        exact inside.1
      · rcases List.mem_append.mp nested with before | after
        · exact ihInner before
        · exact ihRest after

/-- A field below other groups than those that were open already is in one of the body. -/
theorem exists_group_of_depth_lt {body : Body} {depth index : Nat} {field : Field}
    (present : (body.fields depth)[index]? = some field) (below : depth < field.depth)
    (next : Nat) : ∃ group ∈ body.groups next, next + index ∈ group := by
  induction body generalizing depth index next with
  | done => cases present
  | field separator name rest ih =>
      cases index with
      | zero =>
          cases present
          exact absurd below (Nat.lt_irrefl depth)
      | succ index =>
          obtain ⟨group, known, inside⟩ := ih present below (next + 1)
          refine ⟨group, known, ?_⟩
          rwa [show next + (index + 1) = next + 1 + index by omega]
  | group inner rest ihInner ihRest =>
      by_cases within : index < inner.fieldCount
      · refine ⟨List.range' next inner.fieldCount, List.mem_cons_self, ?_⟩
        rw [List.mem_range'_1]
        omega
      · rw [Body.fields, List.getElem?_append_right
          (by rw [inner.length_fields]; omega), inner.length_fields] at present
        obtain ⟨group, known, inside⟩ := ihRest present below (next + inner.fieldCount)
        refine ⟨group, List.mem_cons_of_mem _ (List.mem_append_right _ known), ?_⟩
        rwa [show next + index = next + inner.fieldCount + (index - inner.fieldCount) by omega]

/-- Inside a group only that group and those nested in it tell what is shown. -/
theorem shown_inside_iff {inner rest : Body} {cut next index : Nat} (above : next ≤ index)
    (below : index < next + inner.fieldCount) :
    Shown ((Body.group inner rest).groups next) cut index ↔
      next < cut ∧ Shown (inner.groups next) cut index := by
  have outside : Shown (rest.groups (next + inner.fieldCount)) cut index := by
    refine shown_of_not_mem fun group known inside => ?_
    have bounds := bounds_of_mem_groups known inside
    omega
  have within : index ∈ List.range' next inner.fieldCount :=
    List.mem_range'_1.mpr ⟨above, below⟩
  have first : (List.range' next inner.fieldCount).head? = some next := by
    rw [List.head?_range', if_neg (by omega)]
  rw [groups, shown_cons_iff, shown_append_iff, first]
  simp [outside, within]

private theorem shown_behind_iff {inner rest : Body} {cut next index : Nat}
    (behind : next + inner.fieldCount ≤ index) :
    Shown ((Body.group inner rest).groups next) cut index ↔
      Shown (rest.groups (next + inner.fieldCount)) cut index := by
  have outside : Shown (inner.groups next) cut index := by
    refine shown_of_not_mem fun group known inside => ?_
    have bounds := bounds_of_mem_groups known inside
    omega
  have beyond : index ∉ List.range' next inner.fieldCount := by
    rw [List.mem_range'_1]
    omega
  rw [groups, shown_cons_iff, shown_append_iff]
  simp [outside, beyond]

/-! ### The text -/

private theorem bounds_of_mem_zipIdx {body : Body} {depth next : Nat} {entry : Field × Nat}
    (member : entry ∈ (body.fields depth).zipIdx next) :
    next ≤ entry.2 ∧ entry.2 < next + body.fieldCount := by
  refine ⟨List.le_snd_of_mem_zipIdx member, ?_⟩
  rw [← body.length_fields depth]
  exact List.snd_lt_add_of_mem_zipIdx member

/-- The kept captures of a body are the digits of the fields that are shown. -/
theorem keptCaptures_eq (body : Body) (version : Version) (cut depth next : Nat) :
    body.keptCaptures version cut next =
      ((body.fields depth).zipIdx next).map fun entry =>
        if Shown (body.groups next) cut entry.2 then some (version.digits entry.1.name)
        else none := by
  induction body generalizing depth next with
  | done => rfl
  | field separator name rest ih =>
      have shown : Shown (rest.groups (next + 1)) cut next := by
        refine shown_of_not_mem fun group known inside => ?_
        have bounds := bounds_of_mem_groups known inside
        omega
      rw [keptCaptures, ih depth (next + 1), Body.fields, List.zipIdx_cons, groups, List.map_cons,
        if_pos shown]
  | group inner rest ihInner ihRest =>
      have inside : ((inner.fields (depth + 1)).zipIdx next).map (fun entry =>
            if Shown ((Body.group inner rest).groups next) cut entry.2 then
              some (version.digits entry.1.name)
            else none) =
          if next < cut then inner.keptCaptures version cut next
          else List.replicate inner.fieldCount none := by
        by_cases kept : next < cut
        · rw [if_pos kept, ihInner (depth + 1) next]
          refine List.map_congr_left fun entry member => ?_
          have bounds := bounds_of_mem_zipIdx member
          simp only [shown_inside_iff bounds.1 bounds.2, kept, true_and]
        · rw [if_neg kept]
          refine List.eq_replicate_iff.mpr ⟨?_, ?_⟩
          · rw [List.length_map, List.length_zipIdx, inner.length_fields]
          · intro capture member
            obtain ⟨entry, known, rfl⟩ := List.mem_map.mp member
            have bounds := bounds_of_mem_zipIdx known
            simp only [shown_inside_iff bounds.1 bounds.2, kept, false_and, if_false]
      have behind : ((rest.fields depth).zipIdx (next + inner.fieldCount)).map (fun entry =>
            if Shown ((Body.group inner rest).groups next) cut entry.2 then
              some (version.digits entry.1.name)
            else none) =
          rest.keptCaptures version cut (next + inner.fieldCount) := by
        rw [ihRest depth (next + inner.fieldCount)]
        refine List.map_congr_left fun entry member => ?_
        have bounds := bounds_of_mem_zipIdx member
        simp only [shown_behind_iff bounds.1]
      rw [keptCaptures, Body.fields, List.zipIdx_append, inner.length_fields, List.map_append,
        inside, behind]

/-- The kept text of a body is that of the fields that are shown. -/
private theorem keptText_eq (body : Body) (version : Version) (cut depth next : Nat) :
    body.keptText version cut next =
      (((body.fields depth).zipIdx next).filter fun entry =>
        Shown (body.groups next) cut entry.2).flatMap fun entry =>
          entry.1.separator.toList ++ version.digits entry.1.name := by
  have labels : Piece.labels body.pieces =
      ((body.fields depth).zipIdx next).map fun entry => entry.1.label := by
    calc
      _ = (((body.fields depth).zipIdx next).map Prod.fst).map Field.label := by
        rw [List.zipIdx_map_fst, body.map_label_fields]
      _ = _ := List.map_map
  rw [← (body.derives_kept version cut next).segmentsText_eq, labels,
    body.keptCaptures_eq version cut depth next]
  induction (body.fields depth).zipIdx next with
  | nil => rfl
  | cons entry entries ih =>
      rw [List.map_cons, List.map_cons]
      by_cases shown : Shown (body.groups next) cut entry.2
      · rw [if_pos shown, segments_cons_some, List.filter_cons_of_pos (by simpa using shown),
          List.flatMap_cons, ← ih]
        rfl
      · rw [if_neg shown, segments_cons_none, List.filter_cons_of_neg (by simpa using shown), ih]

end Body

/-! ### The cut -/

namespace Version

/-- The fields from the cut on are optional and zero, and no earlier cut would do. -/
structure CutAt (scheme : Scheme) (version : Version) (cut : Nat) : Prop where
  within : cut ≤ scheme.fields.length
  dropped : ∀ field ∈ scheme.fields.drop cut,
    field.required = false ∧ version.value field.name = 0
  maximal : ∀ earlier, (∀ field ∈ scheme.fields.drop earlier,
    field.required = false ∧ version.value field.name = 0) → cut ≤ earlier

theorem droppable_eq_true_iff (version : Version) (field : Field) :
    version.droppable field = true ↔ field.required = false ∧ version.value field.name = 0 := by
  simp [droppable]

theorem cutAt_cut (scheme : Scheme) (version : Version) :
    version.CutAt scheme (version.cut scheme) where
  within := by
    have shorter := (List.dropWhile_sublist version.droppable (l := scheme.fields.reverse)).length_le
    rwa [List.length_reverse] at shorter
  dropped := by
    intro field member
    obtain ⟨index, present⟩ := List.mem_iff_getElem?.mp member
    rw [List.getElem?_drop] at present
    exact (version.droppable_eq_true_iff field).mp
      (droppable_of_cut_le (Nat.le_add_right _ _) present)
  maximal := by
    intro earlier zeros
    have all : ∀ field ∈ (scheme.fields.drop earlier).reverse, version.droppable field = true :=
      fun field member =>
        (version.droppable_eq_true_iff field).mpr (zeros field (List.mem_reverse.mp member))
    have parts : scheme.fields.reverse =
        (scheme.fields.drop earlier).reverse ++ (scheme.fields.take earlier).reverse := by
      rw [← List.reverse_append, List.take_append_drop]
    rw [cut, parts, List.dropWhile_append_of_pos all]
    calc
      _ ≤ (scheme.fields.take earlier).reverse.length := (List.dropWhile_sublist _).length_le
      _ = min earlier scheme.fields.length := by rw [List.length_reverse, List.length_take]
      _ ≤ earlier := Nat.min_le_left _ _

end Version

/-! ### The counter of the walk -/

def nextCount (cut : Nat) (count : Int) : Token → List Token → Int
  | .opening, tokens =>
      if 0 < count then count + 1
      else if ∃ first ∈ Token.firstField tokens, first < cut then 0 else 1
  | .closing, _ => if 0 < count then count - 1 else count
  | .field _, _ => count

def counts (cut : Nat) : Int → List Token → List Int
  | count, [] => [count]
  | count, token :: tokens => count :: counts cut (nextCount cut count token tokens) tokens

private theorem nextCount_positive_opening (cut skipped : Nat) (tokens : List Token) :
    nextCount cut (skipped + 1 : Nat) .opening tokens = (skipped + 2 : Nat) :=
  if_pos (Int.natCast_pos.mpr (Nat.succ_pos skipped))

private theorem nextCount_positive_closing (cut skipped : Nat) (tokens : List Token) :
    nextCount cut (skipped + 1 : Nat) .closing tokens = skipped := by
  rw [nextCount, if_pos (Int.natCast_pos.mpr (Nat.succ_pos skipped)), Int.natCast_succ,
    Int.add_sub_cancel]

def Version.written (version : Version) (fields : List Field) : Token × Int → Option String
  | (.field index, count) =>
      if count = 0 then some ((fields[index]?.map version.renderField).getD "") else none
  | _ => none

theorem Version.walk_eq_filterMap (version : Version) (fields : List Field) (cut skipped : Nat)
    (tokens : List Token) :
    version.walk fields cut skipped tokens =
      (tokens.zip (counts cut skipped tokens)).filterMap (version.written fields) := by
  induction tokens generalizing skipped with
  | nil => rw [Version.walk, List.zip_nil_left, List.filterMap_nil]
  | cons token tokens ih =>
      rw [counts, List.zip_cons_cons]
      cases skipped with
      | zero =>
          cases token with
          | opening =>
              rw [Version.walk, List.filterMap_cons_none rfl, nextCount, if_neg (by decide)]
              cases first : Token.firstField tokens with
              | none => exact ih 1
              | some number =>
                  simp only [Option.mem_some, exists_eq_left']
                  split
                  next => exact ih 0
                  next => exact ih 1
          | closing => exact ih 0
          | field index =>
              rw [Version.walk, ih 0]
              rfl
      | succ skipped =>
          have silent (index : Nat) :
              version.written fields (.field index, ((skipped + 1 : Nat) : Int)) = none := by
            rw [Version.written, if_neg (Int.natCast_ne_zero.mpr (Nat.succ_ne_zero skipped))]
          cases token with
          | opening =>
              rw [Version.walk, ih, nextCount_positive_opening, List.filterMap_cons_none rfl]
          | closing =>
              rw [Version.walk, ih, nextCount_positive_closing, List.filterMap_cons_none rfl]
          | field index =>
              rw [Version.walk, ih, nextCount, List.filterMap_cons_none (silent index)]

/-- The first fields of the groups that are open, the innermost group first, before each
token and at the end. -/
def Token.openings : List Nat → List Token → List (List Nat)
  | starts, [] => [starts]
  | starts, .opening :: tokens =>
      starts :: openings ((Token.firstField tokens).toList ++ starts) tokens
  | starts, .closing :: tokens => starts :: openings starts.tail tokens
  | starts, .field _ :: tokens => starts :: openings starts tokens

def late (cut : Nat) (starts : List Nat) : Int :=
  (starts.countP (cut ≤ ·) : Nat)

section Counting

variable {cut next : Nat} {starts : List Nat} (earlier : ∀ start ∈ starts, start ≤ next)

include earlier

private theorem late_eq_zero (before : next < cut) : late cut starts = 0 := by
  have none : starts.countP (cut ≤ ·) = 0 := by
    rw [List.countP_eq_zero]
    intro start member
    have bound := earlier start member
    simpa using Nat.lt_of_le_of_lt bound before
  rw [late, none]
  rfl

private theorem late_cons (cut : Nat) :
    late cut (next :: starts) = if next < cut then 0 else late cut starts + 1 := by
  split
  next before =>
    have within : ∀ start ∈ next :: starts, start ≤ next :=
      List.forall_mem_cons.mpr ⟨Nat.le_refl next, earlier⟩
    exact late_eq_zero within before
  next behind =>
    rw [late, List.countP_cons_of_pos (by simpa using behind)]
    rfl

private theorem nextCount_opening {tokens : List Token}
    (first : Token.firstField tokens = some next) :
    nextCount cut (late cut starts) .opening tokens = late cut (next :: starts) := by
  rw [late_cons earlier, nextCount, first]
  by_cases before : next < cut
  · rw [late_eq_zero earlier before]
    simp [before]
  · have nonneg : 0 ≤ late cut starts := Int.natCast_nonneg _
    simp only [Option.mem_some, exists_eq_left', before, if_false]
    split
    next => rfl
    next zero => omega

private theorem nextCount_closing (tokens : List Token) :
    nextCount cut (late cut (next :: starts)) .closing tokens = late cut starts := by
  rw [late_cons earlier, nextCount]
  by_cases before : next < cut
  · rw [late_eq_zero earlier before]
    simp [before]
  · have nonneg : 0 ≤ late cut starts := Int.natCast_nonneg _
    rw [if_neg before, if_pos (by omega)]
    omega

end Counting

/-- Over a body the counter is the number of open groups that start at or after the cut,
if it is so behind the body. -/
private theorem Body.WellFormed.counts_eq {body : Body} (formed : body.WellFormed) {cut next : Nat}
    {starts : List Nat} (earlier : ∀ start ∈ starts, start ≤ next) {following : List Piece}
    (later : counts cut (late cut starts) (Token.number (next + body.fieldCount) following) =
      (Token.openings starts (Token.number (next + body.fieldCount) following)).map (late cut)) :
    counts cut (late cut starts) (Token.number next (body.pieces ++ following)) =
      (Token.openings starts (Token.number next (body.pieces ++ following))).map (late cut) := by
  induction formed generalizing next starts following with
  | done => exact later
  | @field separator name rest _ _ _ ih =>
      have index : next + (rest.fieldCount + 1) = next + 1 + rest.fieldCount := by omega
      rw [fieldCount, index] at later
      have behind := ih (fun start member => Nat.le_succ_of_le (earlier start member)) later
      exact congrArg (late cut starts :: ·) behind
  | @group inner rest holding formedInner _ ihInner ihRest =>
      have index : next + (inner.fieldCount + rest.fieldCount) =
          next + inner.fieldCount + rest.fieldCount := by omega
      have first := formedInner.firstField_number holding next
        (.closing :: (rest.pieces ++ following))
      have within : ∀ start ∈ next :: starts, start ≤ next :=
        List.forall_mem_cons.mpr ⟨Nat.le_refl next, earlier⟩
      rw [fieldCount, index] at later
      have earlierStill : ∀ start ∈ starts, start ≤ next + inner.fieldCount :=
        fun start member => Nat.le_add_right_of_le (earlier start member)
      have behind := ihRest earlierStill later
      have closed : counts cut (late cut (next :: starts))
            (Token.number (next + inner.fieldCount) (.closing :: (rest.pieces ++ following))) =
          (Token.openings (next :: starts)
            (Token.number (next + inner.fieldCount)
              (.closing :: (rest.pieces ++ following)))).map (late cut) := by
        rw [Token.number, counts, nextCount_closing earlier, behind]
        rfl
      have opened := ihInner within closed
      rw [pieces_group_append, Token.number, counts, nextCount_opening earlier first, opened, Token.openings,
        first]
      rfl

private theorem Token.openings_ne_nil (starts : List Nat) (tokens : List Token) :
    Token.openings starts tokens ≠ [] := by
  cases tokens with
  | nil => exact List.cons_ne_nil _ _
  | cons token tokens =>
      cases token with
      | opening => exact List.cons_ne_nil _ _
      | closing => exact List.cons_ne_nil _ _
      | field index => exact List.cons_ne_nil _ _

/-- Every group that a body opens is closed in it. -/
private theorem Body.WellFormed.getLast?_openings {body : Body} (formed : body.WellFormed)
    (next : Nat)
    (starts : List Nat) (following : List Piece) :
    (Token.openings starts (Token.number next (body.pieces ++ following))).getLast? =
      (Token.openings starts (Token.number (next + body.fieldCount) following)).getLast? := by
  induction formed generalizing next starts following with
  | done => rfl
  | @field separator name rest _ _ _ ih =>
      have index : next + (rest.fieldCount + 1) = next + 1 + rest.fieldCount := by omega
      rw [fieldCount, index, ← ih]
      exact List.getLast?_cons_of_ne_nil (Token.openings_ne_nil _ _)
  | @group inner rest holding formedInner _ ihInner ihRest =>
      have index : next + (inner.fieldCount + rest.fieldCount) =
          next + inner.fieldCount + rest.fieldCount := by omega
      have first := formedInner.firstField_number holding next
        (.closing :: (rest.pieces ++ following))
      calc
        _ = (Token.openings (next :: starts) (Token.number next
              (inner.pieces ++ .closing :: (rest.pieces ++ following)))).getLast? := by
          rw [Body.pieces_group_append, Token.number, Token.openings, first]
          exact List.getLast?_cons_of_ne_nil (Token.openings_ne_nil _ _)
        _ = (Token.openings starts (Token.number (next + inner.fieldCount)
              (rest.pieces ++ following))).getLast? := by
          rw [ihInner]
          exact List.getLast?_cons_of_ne_nil (Token.openings_ne_nil _ _)
        _ = _ := by rw [ihRest, fieldCount, index]

namespace Scheme

/-- The groups of a scheme, each as the list of the numbers of its fields. -/
def groups (scheme : Scheme) : List (List Nat) :=
  scheme.whole.groups 0

variable {scheme : Scheme} (formed : scheme.WellFormed)

include formed

theorem WellFormed.counts_tokens (cut : Nat) :
    counts cut 0 scheme.tokens = (Token.openings [] scheme.tokens).map (late cut) := by
  have none : ∀ start ∈ ([] : List Nat), start ≤ 1 := List.forall_mem_nil _
  have ends : counts cut (late cut []) (Token.number (1 + scheme.body.fieldCount) []) =
      (Token.openings [] (Token.number (1 + scheme.body.fieldCount) [])).map (late cut) := rfl
  have body := formed.body.counts_eq none ends
  rw [List.append_nil] at body
  exact congrArg (0 :: ·) body

private theorem WellFormed.getLast?_counts_tokens (cut : Nat) :
    (counts cut 0 scheme.tokens).getLast? = some 0 := by
  have body := formed.body.getLast?_openings 1 [] []
  rw [List.append_nil] at body
  have tokens : (Token.openings [] scheme.tokens).getLast? = some [] :=
    (List.getLast?_cons_of_ne_nil (Token.openings_ne_nil _ _)).trans body
  rw [formed.counts_tokens, List.getLast?_map, tokens]
  rfl

end Scheme

namespace Version

theorem render_eq_join {scheme : Scheme} (formed : scheme.WellFormed) (version : Version) :
    version.render scheme =
      String.join ((scheme.fields.zipIdx.filter fun entry =>
        Shown scheme.groups (version.cut scheme) entry.2).map fun entry =>
          entry.1.separator ++ toString (version.value entry.1.name).toNat) := by
  rw [← String.toList_inj, toList_render formed, Body.keptText_eq _ _ _ 0, String.toList_join,
    List.flatMap_map]
  refine congrArg (List.flatMap · _) (funext fun entry => ?_)
  rw [String.toList_append, digits, Nat.toString_eq_repr, Nat.toList_repr]

/-- What a version of a parsed scheme is rendered as. The cut is where the longest row of
optional zero fields at the end starts. Shown are, in the order of the scheme and each with
its separator and its number, exactly the fields all of whose groups start before the cut:
every field before the cut, no field of a group that starts at or after it, and from the
cut on only zeros in groups that start before it. The walk over the tokens writes a field
where its counter is zero, and the counter is the number of open groups that start at or
after the cut, so it is never negative and ends as zero. -/
theorem render_exact {text : String} {scheme : Scheme} (parsed : Scheme.parse text = .ok scheme)
    (version : Version) :
    version.CutAt scheme (version.cut scheme) ∧
    version.render scheme =
      String.join ((scheme.fields.zipIdx.filter fun entry =>
        Shown scheme.groups (version.cut scheme) entry.2).map fun entry =>
          entry.1.separator ++ toString (version.value entry.1.name).toNat) ∧
    (∀ index < version.cut scheme, Shown scheme.groups (version.cut scheme) index) ∧
    (∀ group ∈ scheme.groups, (∀ first ∈ group.head?, version.cut scheme ≤ first) →
      ∀ index ∈ group, ¬ Shown scheme.groups (version.cut scheme) index) ∧
    (∀ index field, scheme.fields[index]? = some field → version.cut scheme ≤ index →
      version.value field.name = 0 ∧
        (Shown scheme.groups (version.cut scheme) index →
          ∃ group ∈ scheme.groups, index ∈ group ∧
            ∃ first ∈ group.head?, first < version.cut scheme)) ∧
    version.walk scheme.fields (version.cut scheme) 0 scheme.tokens =
      (scheme.tokens.zip (counts (version.cut scheme) 0 scheme.tokens)).filterMap
        (version.written scheme.fields) ∧
    counts (version.cut scheme) 0 scheme.tokens =
      (Token.openings [] scheme.tokens).map (late (version.cut scheme)) ∧
    (∀ count ∈ counts (version.cut scheme) 0 scheme.tokens, 0 ≤ count) ∧
    (counts (version.cut scheme) 0 scheme.tokens).getLast? = some 0 := by
  have formed := (Scheme.wellFormed_of_parse parsed).1
  have cutAt := cutAt_cut scheme version
  refine ⟨cutAt, render_eq_join formed version, ?_, ?_, ?_, walk_eq_filterMap _ _ _ _ _,
    formed.counts_tokens _, ?_, formed.getLast?_counts_tokens _⟩
  · intro index before group known inside first starts
    exact Nat.lt_of_le_of_lt (Body.head_le_of_mem_groups known starts inside) before
  · intro group known behind index inside shown
    obtain ⟨first, starts⟩ := exists_head?_of_mem inside
    exact absurd (shown group known inside first starts) (Nat.not_lt.mpr (behind first starts))
  · intro index field present behind
    have zero := cutAt.dropped field (by
      refine List.mem_iff_getElem?.mpr ⟨index - version.cut scheme, ?_⟩
      rw [List.getElem?_drop, Nat.add_sub_cancel' behind, present])
    refine ⟨zero.2, fun shown => ?_⟩
    have inWhole : (scheme.whole.fields 0)[index]? = some field := present
    have below : 0 < field.depth := by
      have optional := zero.1
      simpa [Field.required, Nat.pos_iff_ne_zero] using optional
    obtain ⟨group, known, inside⟩ :=
      Body.exists_group_of_depth_lt inWhole below 0
    rw [Nat.zero_add] at inside
    obtain ⟨first, starts⟩ := exists_head?_of_mem inside
    exact ⟨group, known, inside, first, starts, shown group known inside first starts⟩
  · intro count member
    rw [formed.counts_tokens] at member
    obtain ⟨starts, _, rfl⟩ := List.mem_map.mp member
    exact Int.natCast_nonneg _

/-- A zero is shown next to the field that its group starts with. The group inside that one
is left out, and so is the last one with the one inside it. -/
theorem render_exact_shared_group :
    ∃ (scheme : Scheme) (version : Version),
      Scheme.parse "a[.b[-c].d][+e[.f]]" = .ok scheme ∧
      version.cut scheme = 2 ∧ version.render scheme = "1.3.0" ∧
      scheme.groups = [[1, 2, 3], [2], [4, 5], [5]] ∧
      counts 2 0 scheme.tokens = [0, 0, 0, 0, 1, 1, 0, 0, 0, 1, 1, 2, 2, 1, 0] ∧
      Shown scheme.groups 2 3 ∧ ¬ Shown scheme.groups 2 2 := by
  have parsed : Scheme.parse "a[.b[-c].d][+e[.f]]" =
      .ok ⟨"a", .group (.field "." "b" (.group (.field "-" "c" .done) (.field "." "d" .done)))
        (.group (.field "+" "e" (.group (.field "." "f" .done) .done)) .done)⟩ := by rfl
  obtain ⟨_, rendered, _, leftOut, _⟩ := render_exact parsed (ofPairs [("a", 1), ("b", 3)])
  exact ⟨_, ofPairs [("a", 1), ("b", 3)], parsed, by decide +kernel,
    rendered.trans (by decide +kernel), by decide, by decide, by decide,
    leftOut [2] (by decide) (by decide +kernel) 2 (by decide)⟩

end Version

end Versioning
