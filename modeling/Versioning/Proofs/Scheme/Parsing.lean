import Versioning.Proofs.Scheme.Lexing
import Versioning.Proofs.Success

/-!
Parsing accepts exactly the spellings of well-formed schemes.

Each lexeme that the pass accepts puts one piece in front of the pieces read
after it. `Closes` says what those later pieces are: the rest of the innermost
open body, and then for each open group its closing bracket with the rest of the
body around it. Every lexeme keeps this up, which gives soundness; completeness
runs the pass over the lexemes of a given tree.
-/

namespace Versioning

/-! ### Checks -/

private theorem checkEnd_eq_ok_iff (progress : Progress) :
    progress.checkEnd = .ok () ↔
      progress.depth = 0 ∧ progress.pending = [] ∧ progress.seen ≠ [] := by
  by_cases depth : progress.depth = 0
  · by_cases pending : progress.pending = []
    · by_cases seen : progress.seen = []
      · simp [Progress.checkEnd, depth, pending, seen]
      · simp [Progress.checkEnd, depth, pending, seen]
    · simp [Progress.checkEnd, depth, pending]
  · simp [Progress.checkEnd, depth]

private theorem checkOpening_eq_ok_iff (progress : Progress) :
    progress.checkOpening = .ok () ↔ progress.pending = [] := by
  by_cases pending : progress.pending = []
  · simp [Progress.checkOpening, pending]
  · simp [Progress.checkOpening, pending]

private theorem checkClosing_eq_ok_iff (progress : Progress) :
    progress.checkClosing = .ok () ↔
      progress.pending = [] ∧ progress.depth ≠ 0 ∧ progress.fresh = false := by
  by_cases pending : progress.pending = []
  · by_cases depth : progress.depth = 0
    · simp [Progress.checkClosing, pending, depth]
    · cases fresh : progress.fresh <;>
        simp [Progress.checkClosing, pending, depth, fresh]
  · simp [Progress.checkClosing, pending]

private theorem checkField_lead_eq_ok_iff (progress : Progress) (name : String)
    (lead : progress.seen = []) :
    progress.checkField name = .ok () ↔
      progress.pending = [] ∧ progress.depth = 0 := by
  by_cases pending : progress.pending = []
  · by_cases depth : progress.depth = 0
    · simp [Progress.checkField, lead, pending, depth]
    · simp [Progress.checkField, lead, pending, depth]
  · simp [Progress.checkField, lead, pending]

private theorem checkField_later_eq_ok_iff (progress : Progress) (name : String)
    (later : progress.seen ≠ []) :
    progress.checkField name = .ok () ↔
      progress.pending ≠ [] ∧ name ∉ progress.seen := by
  by_cases pending : progress.pending = []
  · simp [Progress.checkField, later, pending]
  · by_cases known : name ∈ progress.seen
    · simp [Progress.checkField, later, pending, known]
    · simp [Progress.checkField, later, pending, known]

/-! ### Steps -/

def Progress.afterOpening (progress : Progress) : Progress :=
  { progress with depth := progress.depth + 1, fresh := true }

def Progress.afterClosing (progress : Progress) : Progress :=
  { progress with depth := progress.depth - 1, fresh := false }

def Progress.afterField (progress : Progress) (name : String) : Progress :=
  { progress with fresh := false, seen := name :: progress.seen, pending := [] }

def Progress.afterMark (progress : Progress) (text : List Char) : Progress :=
  { progress with pending := progress.pending ++ text }

/-- Something is checked first, and what comes later is then put to use. -/
private theorem check_bind_map_eq_ok_iff {ε α β : Type} {check : Except ε Unit}
    {later : Except ε α} {use : α → β} {result : β} :
    (do check; let value ← later; pure (use value)) = .ok result ↔
      check = .ok () ∧ ∃ value, later = .ok value ∧ result = use value := by
  rw [bind_eq_ok]
  constructor
  · rintro ⟨_, checked, read⟩
    obtain ⟨value, done, last⟩ := bind_eq_ok.mp read
    exact ⟨checked, value, done, pure_eq_ok.mp last⟩
  · rintro ⟨checked, value, done, rfl⟩
    exact ⟨(), checked, bind_eq_ok.mpr ⟨value, done, rfl⟩⟩

private theorem ofLexemes_nil_eq_ok_iff (progress : Progress) (pieces : List Piece) :
    Piece.ofLexemes progress [] = .ok pieces ↔
      progress.checkEnd = .ok () ∧ pieces = [] := by
  rw [Piece.ofLexemes, bind_eq_ok]
  constructor
  · rintro ⟨_, checked, read⟩
    exact ⟨checked, pure_eq_ok.mp read⟩
  · rintro ⟨checked, rfl⟩
    exact ⟨(), checked, rfl⟩

private theorem ofLexemes_opening_eq_ok_iff (progress : Progress) (later : List Lexeme)
    (pieces : List Piece) :
    Piece.ofLexemes progress (.opening :: later) = .ok pieces ↔
      progress.checkOpening = .ok () ∧
        ∃ others, Piece.ofLexemes progress.afterOpening later = .ok others ∧
          pieces = .opening :: others := by
  rw [Piece.ofLexemes]
  exact check_bind_map_eq_ok_iff

private theorem ofLexemes_closing_eq_ok_iff (progress : Progress) (later : List Lexeme)
    (pieces : List Piece) :
    Piece.ofLexemes progress (.closing :: later) = .ok pieces ↔
      progress.checkClosing = .ok () ∧
        ∃ others, Piece.ofLexemes progress.afterClosing later = .ok others ∧
          pieces = .closing :: others := by
  rw [Piece.ofLexemes]
  exact check_bind_map_eq_ok_iff

private theorem ofLexemes_word_eq_ok_iff (progress : Progress) (text : List Char)
    (later : List Lexeme) (pieces : List Piece) :
    Piece.ofLexemes progress (.word text :: later) = .ok pieces ↔
      progress.checkField (String.ofList text) = .ok () ∧
        ∃ others,
          Piece.ofLexemes (progress.afterField (String.ofList text)) later = .ok others ∧
          pieces =
            .field (String.ofList progress.pending) (String.ofList text) :: others := by
  rw [Piece.ofLexemes]
  exact check_bind_map_eq_ok_iff

private theorem ofLexemes_mark (progress : Progress) (text : List Char) (later : List Lexeme) :
    Piece.ofLexemes progress (.mark text :: later) =
      Piece.ofLexemes (progress.afterMark text) later :=
  rfl

/-! ### Assembly -/

/-- The pieces that finish the bodies that are open: the innermost one, and for
each one around it a closing bracket first. -/
def Body.closingPieces (innermost : Body) (outer : List Body) : List Piece :=
  innermost.pieces ++ outer.flatMap fun body => .closing :: body.pieces

/-- A body in front of a closing bracket or of the end is assembled as it is. -/
private theorem Body.assemble_pieces_append (body : Body) (following : List Piece)
    (outer : List Body) (assembled : Body.assemble following = .done :: outer) :
    Body.assemble (body.pieces ++ following) = body :: outer := by
  induction body generalizing following outer with
  | done => exact assembled
  | field separator name rest ih =>
      change Body.assemble (.field separator name :: (rest.pieces ++ following)) = _
      rw [Body.assemble, ih following outer assembled]
  | group inner rest ihInner ihRest =>
      have outside := ihRest following outer assembled
      have inside := ihInner (.closing :: (rest.pieces ++ following)) (rest :: outer)
        (by rw [Body.assemble, outside])
      have pieces : (Body.group inner rest).pieces ++ following =
          .opening :: (inner.pieces ++ .closing :: (rest.pieces ++ following)) := by
        simp [Body.pieces]
      rw [pieces, Body.assemble, inside]

theorem Body.assemble_closingPieces (innermost : Body) (outer : List Body) :
    Body.assemble (Body.closingPieces innermost outer) = innermost :: outer := by
  induction outer generalizing innermost with
  | nil => exact innermost.assemble_pieces_append [] [] rfl
  | cons body outer ih =>
      have outside : Body.assemble
          (.closing :: Body.closingPieces body outer) = .done :: body :: outer := by
        rw [Body.assemble, ih body]
      have pieces : Body.closingPieces innermost (body :: outer) =
          innermost.pieces ++ .closing :: Body.closingPieces body outer := by
        simp [Body.closingPieces]
      rw [pieces]
      exact innermost.assemble_pieces_append _ _ outside

/-! ### Soundness -/

structure Progress.Started (progress : Progress) : Prop where
  seen : progress.seen ≠ []
  pending : ∀ c ∈ progress.pending, isMarkChar c = true
  open_of_fresh : progress.fresh = true → progress.depth ≠ 0

structure Closes (progress : Progress) (characters : List Char) (pieces : List Piece)
    (innermost : Body) (outer : List Body) : Prop where
  pieces_eq : pieces = Body.closingPieces innermost outer
  depth : outer.length = progress.depth
  spelled : progress.pending ++ characters =
    pieces.flatMap fun piece => piece.spelling.toList
  innermostFormed : innermost.WellFormed
  outerFormed : ∀ body ∈ outer, body.WellFormed
  holding : progress.fresh = true → innermost ≠ .done
  distinct : (Piece.names pieces).Nodup
  unseen : ∀ name ∈ Piece.names pieces, name ∉ progress.seen

private theorem Closes.end (progress : Progress) (started : progress.Started)
    (depth : progress.depth = 0) (pending : progress.pending = []) :
    Closes progress [] [] .done [] where
  pieces_eq := rfl
  depth := depth.symm
  spelled := by simp [pending]
  innermostFormed := .done
  outerFormed := by simp
  holding := fun fresh => absurd depth (started.open_of_fresh fresh)
  distinct := List.nodup_nil
  unseen := by simp [Piece.names]

/-- After an opening bracket the innermost body is the group's, and the body
around it is the first one outside. -/
private theorem Closes.opening {progress : Progress} {characters : List Char}
    {pieces : List Piece} {inner : Body} {outer : List Body}
    (pending : progress.pending = [])
    (closes : Closes progress.afterOpening characters pieces inner outer) :
    ∃ rest outside, outer = rest :: outside ∧
      Closes progress ('[' :: characters) (.opening :: pieces) (.group inner rest)
        outside := by
  cases outer with
  | nil => exact absurd closes.depth (Nat.succ_ne_zero progress.depth).symm
  | cons rest outside =>
      have bodies := List.forall_mem_cons.mp closes.outerFormed
      have spelled := closes.spelled
      refine ⟨rest, outside, rfl, ?_⟩
      exact {
        pieces_eq := by
          rw [closes.pieces_eq]
          simp [Body.closingPieces, Body.pieces]
        depth := Nat.succ.inj closes.depth
        spelled := by
          simp only [Progress.afterOpening, pending, List.nil_append] at spelled ⊢
          rw [List.flatMap_cons, ← spelled]
          rfl
        innermostFormed :=
          .group (closes.holding rfl) closes.innermostFormed bodies.1
        outerFormed := bodies.2
        holding := by
          intro _ impossible
          cases impossible
        distinct := closes.distinct
        unseen := closes.unseen }

private theorem Closes.closing {progress : Progress} {characters : List Char}
    {pieces : List Piece} {innermost : Body} {outer : List Body}
    (pending : progress.pending = []) (depth : progress.depth ≠ 0)
    (fresh : progress.fresh = false)
    (closes : Closes progress.afterClosing characters pieces innermost outer) :
    Closes progress (']' :: characters) (.closing :: pieces) .done
      (innermost :: outer) where
  pieces_eq := by
    rw [closes.pieces_eq]
    simp [Body.closingPieces, Body.pieces]
  depth := by
    have outside : outer.length = progress.depth - 1 := closes.depth
    rw [List.length_cons]
    omega
  spelled := by
    have spelled := closes.spelled
    simp only [Progress.afterClosing, pending, List.nil_append] at spelled ⊢
    rw [List.flatMap_cons, ← spelled]
    rfl
  innermostFormed := .done
  outerFormed := List.forall_mem_cons.mpr ⟨closes.innermostFormed, closes.outerFormed⟩
  holding := by
    intro isFresh
    rw [fresh] at isFresh
    cases isFresh
  distinct := closes.distinct
  unseen := closes.unseen

private theorem Closes.word {progress : Progress} {text characters : List Char}
    {pieces : List Piece} {rest : Body} {outer : List Body}
    (started : progress.Started) (isName : IsRun isNameChar text)
    (pending : progress.pending ≠ []) (unseen : String.ofList text ∉ progress.seen)
    (closes : Closes (progress.afterField (String.ofList text)) characters pieces
      rest outer) :
    Closes progress (text ++ characters)
      (.field (String.ofList progress.pending) (String.ofList text) :: pieces)
      (.field (String.ofList progress.pending) (String.ofList text) rest) outer where
  pieces_eq := by
    rw [closes.pieces_eq]
    simp [Body.closingPieces, Body.pieces]
  depth := closes.depth
  spelled := by
    have spelled : characters = pieces.flatMap fun piece => piece.spelling.toList :=
      closes.spelled
    rw [List.flatMap_cons, ← spelled]
    simp [Piece.spelling]
  innermostFormed := by
    refine .field ?_ ?_ closes.innermostFormed
    · rw [IsSeparator, String.toList_ofList]
      exact ⟨pending, started.pending⟩
    · rw [IsName, String.toList_ofList]
      exact isName
  outerFormed := closes.outerFormed
  holding := by
    intro _ impossible
    cases impossible
  distinct := by
    refine List.nodup_cons.mpr ⟨?_, closes.distinct⟩
    intro later
    exact closes.unseen _ later (List.mem_cons_self ..)
  unseen := by
    refine List.forall_mem_cons.mpr ⟨unseen, ?_⟩
    intro name later known
    exact closes.unseen name later (List.mem_cons_of_mem _ known)

private theorem Closes.mark {progress : Progress} {text characters : List Char}
    {pieces : List Piece} {innermost : Body} {outer : List Body}
    (closes : Closes (progress.afterMark text) characters pieces innermost outer) :
    Closes progress (text ++ characters) pieces innermost outer where
  pieces_eq := closes.pieces_eq
  depth := closes.depth
  spelled := by
    rw [← closes.spelled]
    simp [Progress.afterMark]
  innermostFormed := closes.innermostFormed
  outerFormed := closes.outerFormed
  holding := closes.holding
  distinct := closes.distinct
  unseen := closes.unseen

/-- Once the leading field was read, whatever the pass accepts finishes what is open. -/
private theorem Closes.of_ofLexemes (lexemes : List Lexeme) (progress : Progress)
    (pieces : List Piece) (started : progress.Started)
    (formed : ∀ lexeme ∈ lexemes, lexeme.Formed)
    (read : Piece.ofLexemes progress lexemes = .ok pieces) :
    ∃ innermost outer,
      Closes progress (lexemes.flatMap Lexeme.text) pieces innermost outer := by
  induction lexemes generalizing progress pieces with
  | nil =>
      obtain ⟨checked, rfl⟩ := (ofLexemes_nil_eq_ok_iff progress pieces).mp read
      have ended := (checkEnd_eq_ok_iff progress).mp checked
      exact ⟨.done, [], Closes.end progress started ended.1 ended.2.1⟩
  | cons lexeme later ih =>
      have parts := List.forall_mem_cons.mp formed
      cases lexeme with
      | opening =>
          obtain ⟨checked, others, readLater, rfl⟩ :=
            (ofLexemes_opening_eq_ok_iff progress later pieces).mp read
          have pending := (checkOpening_eq_ok_iff progress).mp checked
          obtain ⟨inner, outer, closes⟩ := ih progress.afterOpening others
            ⟨started.seen, started.pending, fun _ => Nat.succ_ne_zero _⟩ parts.2 readLater
          obtain ⟨rest, outside, _, whole⟩ := closes.opening pending
          exact ⟨_, outside, whole⟩
      | closing =>
          obtain ⟨checked, others, readLater, rfl⟩ :=
            (ofLexemes_closing_eq_ok_iff progress later pieces).mp read
          obtain ⟨pending, depth, fresh⟩ := (checkClosing_eq_ok_iff progress).mp checked
          obtain ⟨innermost, outer, closes⟩ := ih progress.afterClosing others
            ⟨started.seen, started.pending, by intro impossible; cases impossible⟩
            parts.2 readLater
          exact ⟨.done, innermost :: outer, closes.closing pending depth fresh⟩
      | word text =>
          obtain ⟨checked, others, readLater, rfl⟩ :=
            (ofLexemes_word_eq_ok_iff progress text later pieces).mp read
          obtain ⟨pending, unseen⟩ :=
            (checkField_later_eq_ok_iff progress _ started.seen).mp checked
          obtain ⟨rest, outer, closes⟩ := ih (progress.afterField (String.ofList text)) others
            ⟨List.cons_ne_nil _ _, by simp [Progress.afterField],
              by intro impossible; cases impossible⟩
            parts.2 readLater
          exact ⟨_, outer, closes.word started parts.1 pending unseen⟩
      | mark text =>
          rw [ofLexemes_mark] at read
          have pending : ∀ c ∈ progress.pending ++ text, isMarkChar c = true :=
            List.forall_mem_append.mpr ⟨started.pending, parts.1.2⟩
          obtain ⟨innermost, outer, closes⟩ := ih (progress.afterMark text) pieces
            ⟨started.seen, pending, started.open_of_fresh⟩ parts.2 read
          exact ⟨innermost, outer, closes.mark⟩

/-! ### The leading field -/

/-- Progress from which no leading field can be read any more: a separator or an
empty group stands before it. -/
structure Progress.Astray (progress : Progress) : Prop where
  lead : progress.seen = []
  late : progress.pending ≠ [] ∨ (progress.depth ≠ 0 ∧ progress.fresh = true)

private theorem Progress.Astray.ofLexemes_ne_ok (lexemes : List Lexeme) (progress : Progress)
    (pieces : List Piece) (astray : progress.Astray) :
    Piece.ofLexemes progress lexemes ≠ .ok pieces := by
  intro read
  induction lexemes generalizing progress pieces with
  | nil =>
      have checked := ((ofLexemes_nil_eq_ok_iff progress pieces).mp read).1
      exact ((checkEnd_eq_ok_iff progress).mp checked).2.2 astray.lead
  | cons lexeme later ih =>
      cases lexeme with
      | opening =>
          obtain ⟨_, others, readLater, _⟩ :=
            (ofLexemes_opening_eq_ok_iff progress later pieces).mp read
          exact ih progress.afterOpening others
            ⟨astray.lead, .inr ⟨Nat.succ_ne_zero _, rfl⟩⟩ readLater
      | closing =>
          have checked := ((ofLexemes_closing_eq_ok_iff progress later pieces).mp read).1
          obtain ⟨pending, _, fresh⟩ := (checkClosing_eq_ok_iff progress).mp checked
          rcases astray.late with waiting | ⟨_, isFresh⟩
          · exact waiting pending
          · rw [fresh] at isFresh
            cases isFresh
      | word text =>
          have checked := ((ofLexemes_word_eq_ok_iff progress text later pieces).mp read).1
          obtain ⟨pending, depth⟩ :=
            (checkField_lead_eq_ok_iff progress _ astray.lead).mp checked
          rcases astray.late with waiting | ⟨nested, _⟩
          · exact waiting pending
          · exact nested depth
      | mark text =>
          rw [ofLexemes_mark] at read
          refine ih (progress.afterMark text) pieces ⟨astray.lead, ?_⟩ read
          rcases astray.late with waiting | nested
          · exact .inl (List.append_ne_nil_of_left_ne_nil waiting text)
          · exact .inr nested

/-- A text that is accepted starts with the name of the leading field. -/
private theorem lead_of_ofLexemes (lexemes : List Lexeme) (pieces : List Piece)
    (formed : ∀ lexeme ∈ lexemes, lexeme.Formed)
    (read : Piece.ofLexemes Progress.start lexemes = .ok pieces) :
    ∃ lead later others,
      lexemes = .word lead :: later ∧ pieces = .field "" (String.ofList lead) :: others ∧
        Piece.ofLexemes (Progress.start.afterField (String.ofList lead)) later =
          .ok others := by
  cases lexemes with
  | nil =>
      have checked := ((ofLexemes_nil_eq_ok_iff _ pieces).mp read).1
      exact absurd rfl ((checkEnd_eq_ok_iff _).mp checked).2.2
  | cons lexeme later =>
      have parts := List.forall_mem_cons.mp formed
      cases lexeme with
      | opening =>
          obtain ⟨_, others, readLater, _⟩ :=
            (ofLexemes_opening_eq_ok_iff _ later pieces).mp read
          have astray : Progress.start.afterOpening.Astray :=
            ⟨rfl, .inr ⟨Nat.succ_ne_zero _, rfl⟩⟩
          exact absurd readLater (astray.ofLexemes_ne_ok later _ others)
      | closing =>
          have checked := ((ofLexemes_closing_eq_ok_iff _ later pieces).mp read).1
          exact absurd rfl ((checkClosing_eq_ok_iff _).mp checked).2.1
      | word lead =>
          obtain ⟨_, others, readLater, whole⟩ :=
            (ofLexemes_word_eq_ok_iff _ lead later pieces).mp read
          exact ⟨lead, later, others, rfl, whole, readLater⟩
      | mark text =>
          rw [ofLexemes_mark] at read
          have astray : (Progress.start.afterMark text).Astray := ⟨rfl, .inl parts.1.1⟩
          exact absurd read (astray.ofLexemes_ne_ok later _ pieces)

/-! ### Completeness -/

def Progress.past (progress : Progress) (body : Body) : Progress :=
  { progress with
    fresh := progress.fresh && decide (body = .done)
    seen := (Piece.names body.pieces).reverse ++ progress.seen }

/-- The pass reads the lexemes of a well-formed body as the body's pieces. -/
private theorem Body.WellFormed.ofLexemes_append {body : Body} (formed : body.WellFormed)
    (progress : Progress) (later : List Lexeme) (others : List Piece)
    (seen : progress.seen ≠ []) (pending : progress.pending = [])
    (distinct : (Piece.names body.pieces).Nodup)
    (unseen : ∀ name ∈ Piece.names body.pieces, name ∉ progress.seen)
    (read : Piece.ofLexemes (progress.past body) later = .ok others) :
    Piece.ofLexemes progress (body.lexemes ++ later) = .ok (body.pieces ++ others) := by
  induction formed generalizing progress later others with
  | done =>
      have past : progress.past .done = progress := by
        simp [Progress.past, Piece.names, Body.pieces]
      rw [past] at read
      exact read
  | @field separator name rest isSeparator isName formedRest ih =>
      have first := List.nodup_cons.mp distinct
      have others' := List.forall_mem_cons.mp unseen
      have readRest : Piece.ofLexemes
          ((progress.afterMark separator.toList).afterField name)
          (rest.lexemes ++ later) = .ok (rest.pieces ++ others) := by
        refine ih _ later others (List.cons_ne_nil _ _) rfl first.2 ?_ ?_
        · intro other member known
          rcases List.mem_cons.mp known with same | before
          · subst same
            exact first.1 member
          · exact others'.2 other member before
        · simpa [Progress.past, Progress.afterField, Progress.afterMark, Piece.names,
            Body.pieces, Piece.name?, pending] using read
      change Piece.ofLexemes progress
        (.mark separator.toList :: .word name.toList :: (rest.lexemes ++ later)) = _
      rw [ofLexemes_mark, ofLexemes_word_eq_ok_iff, String.ofList_toList]
      refine ⟨?_, rest.pieces ++ others, readRest, ?_⟩
      · refine (checkField_later_eq_ok_iff (progress.afterMark _) name seen).mpr
          ⟨?_, others'.1⟩
        exact List.append_ne_nil_of_right_ne_nil _ isSeparator.1
      · simp [Progress.afterMark, pending, Body.pieces]
  | @group inner rest holding formedInner formedRest ihInner ihRest =>
      have names : Piece.names (Body.group inner rest).pieces =
          Piece.names inner.pieces ++ Piece.names rest.pieces :=
        Piece.names_append inner.pieces (.closing :: rest.pieces)
      rw [names] at distinct unseen
      have apart := List.nodup_append.mp distinct
      have parts := List.forall_mem_append.mp unseen
      have readRest : Piece.ofLexemes (progress.afterOpening.past inner).afterClosing
          (rest.lexemes ++ later) = .ok (rest.pieces ++ others) := by
        refine ihRest _ later others ?_ pending apart.2.1 ?_ ?_
        · exact List.append_ne_nil_of_right_ne_nil _ seen
        · intro name member known
          rcases List.mem_append.mp known with inside | before
          · exact apart.2.2 name (List.mem_reverse.mp inside) name member rfl
          · exact parts.2 name member before
        · simpa [Progress.past, Progress.afterOpening, Progress.afterClosing, names]
            using read
      have readInner := ihInner progress.afterOpening
        (.closing :: (rest.lexemes ++ later)) (.closing :: (rest.pieces ++ others))
        seen pending apart.1 parts.1 (by
          refine (ofLexemes_closing_eq_ok_iff _ _ _).mpr ⟨?_, _, readRest, rfl⟩
          refine (checkClosing_eq_ok_iff _).mpr ⟨pending, Nat.succ_ne_zero _, ?_⟩
          simp [Progress.past, holding])
      have lexemes : (Body.group inner rest).lexemes ++ later =
          .opening :: (inner.lexemes ++ .closing :: (rest.lexemes ++ later)) := by
        simp [Body.lexemes]
      rw [lexemes, ofLexemes_opening_eq_ok_iff]
      refine ⟨(checkOpening_eq_ok_iff progress).mpr pending, _, readInner, ?_⟩
      simp [Body.pieces]

namespace Scheme

theorem toList_spelling (scheme : Scheme) :
    scheme.spelling.toList = scheme.lead.toList ++ scheme.body.characters := by
  simp [spelling, pieces, whole, Body.pieces, Piece.spelling, Body.characters,
    List.flatMap_map]

theorem map_name_fields (scheme : Scheme) :
    scheme.fields.map Field.name = scheme.lead :: Piece.names scheme.body.pieces :=
  scheme.whole.map_name_fields 0

theorem WellFormed.ofText_spelling {scheme : Scheme} (formed : scheme.WellFormed) :
    Lexeme.ofText scheme.spelling.toList =
      .word scheme.lead.toList :: scheme.body.lexemes := by
  have later := formed.body.foldr_push_characters [] (by intro word more same; cases same)
  rw [List.append_nil] at later
  rw [toList_spelling, Lexeme.ofText, List.foldr_append, later]
  refine foldr_push_word _ _ formed.lead ?_
  intro word more same
  have none := scheme.body.lexemes_append_ne_word []
    (by intro word more same; cases same) word more
  rw [List.append_nil] at none
  exact none same

theorem WellFormed.parse_spelling {scheme : Scheme} (formed : scheme.WellFormed) :
    Scheme.parse scheme.spelling = .ok scheme := by
  have distinct := formed.distinct
  rw [map_name_fields] at distinct
  have apart := List.nodup_cons.mp distinct
  have readBody := formed.body.ofLexemes_append
    (Progress.start.afterField scheme.lead) [] [] (List.cons_ne_nil _ _) rfl apart.2
    (by
      intro name member known
      have same : name = scheme.lead := by
        simpa [Progress.afterField, Progress.start] using known
      subst same
      exact apart.1 member)
    (by
      refine (ofLexemes_nil_eq_ok_iff _ _).mpr ⟨?_, rfl⟩
      exact (checkEnd_eq_ok_iff _).mpr
        ⟨rfl, rfl, List.append_ne_nil_of_right_ne_nil _ (List.cons_ne_nil _ _)⟩)
  have read : Piece.ofLexemes Progress.start
      (.word scheme.lead.toList :: scheme.body.lexemes) =
        .ok (.field "" scheme.lead :: scheme.body.pieces) := by
    rw [List.append_nil, List.append_nil] at readBody
    rw [ofLexemes_word_eq_ok_iff, String.ofList_toList]
    refine ⟨(checkField_lead_eq_ok_iff _ _ rfl).mpr ⟨rfl, rfl⟩, _, readBody, rfl⟩
  have assembled : Body.assemble (.field "" scheme.lead :: scheme.body.pieces) =
      [scheme.whole] := by
    have closed := Body.assemble_closingPieces scheme.whole []
    rw [Body.closingPieces, List.flatMap_nil, List.append_nil] at closed
    exact closed
  rw [Scheme.parse, formed.ofText_spelling, read]
  simp only [bind, Except.bind]
  rw [assembled]
  rfl

theorem wellFormed_of_parse {text : String} {scheme : Scheme}
    (parsed : Scheme.parse text = .ok scheme) :
    scheme.WellFormed ∧ scheme.spelling = text := by
  obtain ⟨pieces, read, built⟩ := bind_eq_ok.mp parsed
  have formed := Lexeme.formed_ofText text.toList
  have characters := Lexeme.flatMap_text_ofText text.toList
  obtain ⟨lead, later, others, lexemes, rfl, readLater⟩ :=
    lead_of_ofLexemes _ pieces formed read
  rw [lexemes] at formed characters
  have parts := List.forall_mem_cons.mp formed
  obtain ⟨body, outer, closes⟩ := Closes.of_ofLexemes later _ others
    ⟨List.cons_ne_nil _ _, by simp [Progress.afterField], by intro impossible; cases impossible⟩
    parts.2 readLater
  have none : outer = [] := List.eq_nil_of_length_eq_zero closes.depth
  subst none
  have pieces_eq : others = body.pieces := by
    simpa [Body.closingPieces] using closes.pieces_eq
  subst pieces_eq
  have assembled : Body.assemble (.field "" (String.ofList lead) :: body.pieces) =
      [.field "" (String.ofList lead) body] := by
    have closed := Body.assemble_closingPieces (.field "" (String.ofList lead) body) []
    rw [Body.closingPieces, List.flatMap_nil, List.append_nil] at closed
    exact closed
  rw [assembled] at built
  have same : scheme = { lead := String.ofList lead, body } := pure_eq_ok.mp built
  subst same
  refine ⟨⟨?_, closes.innermostFormed, ?_⟩, ?_⟩
  · change IsRun isNameChar (String.ofList lead).toList
    rw [String.toList_ofList]
    exact parts.1
  · rw [map_name_fields]
    refine List.nodup_cons.mpr ⟨?_, closes.distinct⟩
    intro member
    exact closes.unseen _ member (List.mem_cons_self ..)
  · have spelled : later.flatMap Lexeme.text = body.characters := closes.spelled
    rw [List.flatMap_cons, spelled] at characters
    apply String.toList_inj.mp
    rw [toList_spelling, ← characters, String.toList_ofList]
    rfl

/-- Parsing gives a scheme exactly for the spelling of a well-formed one, and
that scheme is the answer. -/
theorem parse_eq_ok_iff (text : String) (scheme : Scheme) :
    Scheme.parse text = .ok scheme ↔ scheme.WellFormed ∧ scheme.spelling = text := by
  constructor
  · exact wellFormed_of_parse
  · rintro ⟨formed, rfl⟩
    exact formed.parse_spelling

end Scheme

end Versioning
