import Versioning.Proofs.Scheme.WellFormed

/-!
What the lexemes of a text are.

Lexemes lose nothing of their text, and each word and mark is a run of its kind.
Conversely a run that does not go on in the following text is one lexeme, so the
spelling of well-formed pieces is cut where the pieces are.
-/

namespace Versioning

def Lexeme.Formed : Lexeme → Prop
  | .opening => True
  | .closing => True
  | .word text => IsRun isNameChar text
  | .mark text => IsRun isMarkChar text

/-! ### One character in front -/

private theorem isNameChar_ne_bracket {c : Char} (name : isNameChar c = true) :
    c ≠ '[' ∧ c ≠ ']' := by
  constructor
  · intro same
    subst same
    exact absurd name (by decide)
  · intro same
    subst same
    exact absurd name (by decide)

theorem isMarkChar_iff (c : Char) :
    isMarkChar c = true ↔ isNameChar c = false ∧ c ≠ '[' ∧ c ≠ ']' := by
  simp [isMarkChar, and_assoc]

private theorem push_word (c : Char) (text : List Char) (later : List Lexeme)
    (name : isNameChar c = true) :
    Lexeme.push c (.word text :: later) = .word (c :: text) :: later := by
  have other := isNameChar_ne_bracket name
  simp [Lexeme.push, name, other]

private theorem push_word_start (c : Char) (later : List Lexeme) (name : isNameChar c = true)
    (apart : ∀ text more, later ≠ .word text :: more) :
    Lexeme.push c later = .word [c] :: later := by
  have other := isNameChar_ne_bracket name
  cases later with
  | nil => simp [Lexeme.push, name, other]
  | cons lexeme later =>
      cases lexeme with
      | word text => exact absurd rfl (apart text later)
      | opening | closing | mark text => simp [Lexeme.push, name, other]

private theorem push_mark (c : Char) (text : List Char) (later : List Lexeme)
    (mark : isMarkChar c = true) :
    Lexeme.push c (.mark text :: later) = .mark (c :: text) :: later := by
  have other := (isMarkChar_iff c).mp mark
  simp [Lexeme.push, other]

private theorem push_mark_start (c : Char) (later : List Lexeme) (mark : isMarkChar c = true)
    (apart : ∀ text more, later ≠ .mark text :: more) :
    Lexeme.push c later = .mark [c] :: later := by
  have other := (isMarkChar_iff c).mp mark
  cases later with
  | nil => simp [Lexeme.push, other]
  | cons lexeme later =>
      cases lexeme with
      | mark text => exact absurd rfl (apart text later)
      | opening | closing | word text => simp [Lexeme.push, other]

/-- A character in front of lexemes is nothing, or starts or lengthens a lexeme
of its own kind. -/
private theorem push_cases (c : Char) (later : List Lexeme) :
    (c = '[' ∧ Lexeme.push c later = .opening :: later) ∨
    (c = ']' ∧ Lexeme.push c later = .closing :: later) ∨
    (isNameChar c = true ∧
      (Lexeme.push c later = .word [c] :: later ∨
        ∃ text more, later = .word text :: more ∧
          Lexeme.push c later = .word (c :: text) :: more)) ∨
    (isMarkChar c = true ∧
      (Lexeme.push c later = .mark [c] :: later ∨
        ∃ text more, later = .mark text :: more ∧
          Lexeme.push c later = .mark (c :: text) :: more)) := by
  by_cases opens : c = '['
  · subst opens
    exact .inl ⟨rfl, rfl⟩
  by_cases closes : c = ']'
  · subst closes
    exact .inr (.inl ⟨rfl, rfl⟩)
  cases name : isNameChar c with
  | true =>
      refine .inr (.inr (.inl ⟨rfl, ?_⟩))
      by_cases goesOn : ∃ text more, later = .word text :: more
      · obtain ⟨text, more, rfl⟩ := goesOn
        exact .inr ⟨text, more, rfl, push_word c text more name⟩
      · refine .inl (push_word_start c later name ?_)
        intro text more same
        exact goesOn ⟨text, more, same⟩
  | false =>
      have mark : isMarkChar c = true := (isMarkChar_iff c).mpr ⟨name, opens, closes⟩
      refine .inr (.inr (.inr ⟨mark, ?_⟩))
      by_cases goesOn : ∃ text more, later = .mark text :: more
      · obtain ⟨text, more, rfl⟩ := goesOn
        exact .inr ⟨text, more, rfl, push_mark c text more mark⟩
      · refine .inl (push_mark_start c later mark ?_)
        intro text more same
        exact goesOn ⟨text, more, same⟩

/-! ### From texts to lexemes -/

private theorem flatMap_text_push (c : Char) (later : List Lexeme) :
    (Lexeme.push c later).flatMap Lexeme.text = c :: later.flatMap Lexeme.text := by
  rcases push_cases c later with
    ⟨rfl, pushed⟩ | ⟨rfl, pushed⟩ | ⟨_, pushed | ⟨text, more, rfl, pushed⟩⟩ |
      ⟨_, pushed | ⟨text, more, rfl, pushed⟩⟩
  all_goals
    rw [pushed]
    rfl

private theorem formed_push (c : Char) (later : List Lexeme)
    (formed : ∀ lexeme ∈ later, lexeme.Formed) :
    ∀ lexeme ∈ Lexeme.push c later, lexeme.Formed := by
  rcases push_cases c later with
    ⟨rfl, pushed⟩ | ⟨rfl, pushed⟩ | ⟨name, pushed | ⟨text, more, rfl, pushed⟩⟩ |
      ⟨mark, pushed | ⟨text, more, rfl, pushed⟩⟩
  · rw [pushed]
    exact List.forall_mem_cons.mpr ⟨trivial, formed⟩
  · rw [pushed]
    exact List.forall_mem_cons.mpr ⟨trivial, formed⟩
  · rw [pushed]
    exact List.forall_mem_cons.mpr ⟨.cons name (by simp), formed⟩
  · have parts := List.forall_mem_cons.mp formed
    rw [pushed]
    exact List.forall_mem_cons.mpr ⟨.cons name parts.1.2, parts.2⟩
  · rw [pushed]
    exact List.forall_mem_cons.mpr ⟨.cons mark (by simp), formed⟩
  · have parts := List.forall_mem_cons.mp formed
    rw [pushed]
    exact List.forall_mem_cons.mpr ⟨.cons mark parts.1.2, parts.2⟩

theorem Lexeme.flatMap_text_ofText (text : List Char) :
    (Lexeme.ofText text).flatMap Lexeme.text = text := by
  induction text with
  | nil => rfl
  | cons c text ih =>
      change (Lexeme.push c (Lexeme.ofText text)).flatMap Lexeme.text = c :: text
      rw [flatMap_text_push, ih]

theorem Lexeme.formed_ofText (text : List Char) :
    ∀ lexeme ∈ Lexeme.ofText text, lexeme.Formed := by
  induction text with
  | nil => simp [Lexeme.ofText]
  | cons c text ih => exact formed_push c (Lexeme.ofText text) ih

/-! ### From lexemes to texts -/

/-- A name is one word, unless the following text starts with a word too. -/
theorem foldr_push_word (text : List Char) (later : List Lexeme)
    (run : IsRun isNameChar text) (apart : ∀ word more, later ≠ .word word :: more) :
    text.foldr Lexeme.push later = .word text :: later := by
  induction text with
  | nil => exact absurd rfl run.1
  | cons c text ih =>
      have kinds := List.forall_mem_cons.mp run.2
      rw [List.foldr_cons]
      cases text with
      | nil => exact push_word_start c later kinds.1 apart
      | cons d text =>
          rw [ih ⟨List.cons_ne_nil d text, kinds.2⟩]
          exact push_word c (d :: text) later kinds.1

private theorem foldr_push_mark (text : List Char) (later : List Lexeme)
    (run : IsRun isMarkChar text) (apart : ∀ mark more, later ≠ .mark mark :: more) :
    text.foldr Lexeme.push later = .mark text :: later := by
  induction text with
  | nil => exact absurd rfl run.1
  | cons c text ih =>
      have kinds := List.forall_mem_cons.mp run.2
      rw [List.foldr_cons]
      cases text with
      | nil => exact push_mark_start c later kinds.1 apart
      | cons d text =>
          rw [ih ⟨List.cons_ne_nil d text, kinds.2⟩]
          exact push_mark c (d :: text) later kinds.1

namespace Body

def lexemes : Body → List Lexeme
  | .done => []
  | .field separator name rest =>
      .mark separator.toList :: .word name.toList :: rest.lexemes
  | .group inner rest => .opening :: (inner.lexemes ++ .closing :: rest.lexemes)

def characters (body : Body) : List Char :=
  body.pieces.flatMap fun piece => piece.spelling.toList

theorem characters_field (separator name : String) (rest : Body) :
    (Body.field separator name rest).characters =
      separator.toList ++ (name.toList ++ rest.characters) := by
  simp [characters, pieces, Piece.spelling]

theorem characters_group (inner rest : Body) :
    (Body.group inner rest).characters =
      '[' :: (inner.characters ++ ']' :: rest.characters) := by
  simp [characters, pieces, Piece.spelling]

/-- No body starts with a word, so a name before it ends where the body starts. -/
theorem lexemes_append_ne_word (body : Body) (later : List Lexeme)
    (apart : ∀ word more, later ≠ .word word :: more) :
    ∀ word more, body.lexemes ++ later ≠ .word word :: more := by
  intro word more same
  cases body with
  | done => exact apart word more same
  | field separator name rest => cases same
  | group inner rest => cases same

/-- The spelling of a well-formed body is cut into the body's lexemes. -/
theorem WellFormed.foldr_push_characters {body : Body} (formed : body.WellFormed)
    (later : List Lexeme) (apart : ∀ word more, later ≠ .word word :: more) :
    body.characters.foldr Lexeme.push later = body.lexemes ++ later := by
  induction formed generalizing later with
  | done => rfl
  | @field separator name rest isSeparator isName formedRest ih =>
      rw [characters_field, List.foldr_append, List.foldr_append, ih later apart,
        foldr_push_word _ _ isName (rest.lexemes_append_ne_word later apart),
        foldr_push_mark _ _ isSeparator (by intro mark more same; cases same)]
      rfl
  | @group inner rest holding formedInner formedRest ihInner ihRest =>
      rw [characters_group, List.foldr_cons, List.foldr_append, List.foldr_cons,
        ihRest later apart]
      change Lexeme.push '[' (inner.characters.foldr Lexeme.push
        (.closing :: (rest.lexemes ++ later))) = _
      rw [ihInner _ (by intro word more same; cases same)]
      change Lexeme.opening :: (inner.lexemes ++ .closing :: (rest.lexemes ++ later)) = _
      simp [lexemes]

end Body

end Versioning
