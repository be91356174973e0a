/-!
Steps that may fail.

A computation that may fail and goes on with its result succeeds exactly when both parts
do, and one that has a state as well goes on in the state that was left. Two computations
agree when they fail with the same fault or succeed with related results, and they still
agree after steps that do.
-/

namespace Versioning

theorem bind_eq_ok {ε α β : Type} {first : Except ε α} {next : α → Except ε β}
    {result : β} :
    (first >>= next) = .ok result ↔
      ∃ value, first = .ok value ∧ next value = .ok result := by
  cases first with
  | error fault =>
      constructor
      · intro impossible
        cases impossible
      · rintro ⟨value, impossible, _⟩
        cases impossible
  | ok value =>
      constructor
      · intro succeeded
        exact ⟨value, rfl, succeeded⟩
      · rintro ⟨other, same, succeeded⟩
        cases same
        exact succeeded

theorem bind_eq_error {ε α β : Type} {first : Except ε α} {next : α → Except ε β} {fault : ε} :
    (first >>= next) = .error fault ↔
      first = .error fault ∨ ∃ value, first = .ok value ∧ next value = .error fault := by
  cases first with
  | error other =>
      constructor
      · intro failed
        cases failed
        exact .inl rfl
      · rintro (failed | ⟨value, impossible, _⟩)
        · cases failed
          rfl
        · cases impossible
  | ok value =>
      constructor
      · intro failed
        exact .inr ⟨value, rfl, failed⟩
      · rintro (impossible | ⟨other, same, failed⟩)
        · cases impossible
        · cases same
          exact failed

theorem pure_eq_ok {ε α : Type} {value result : α} :
    (pure value : Except ε α) = .ok result ↔ result = value := by
  constructor
  · intro same
    cases same
    rfl
  · intro same
    rw [same]
    rfl

theorem forM_eq_ok {ε α : Type} {step : α → Except ε Unit} {items : List α}
    (done : items.forM step = .ok ()) : ∀ item ∈ items, step item = .ok () := by
  induction items with
  | nil =>
      intro item member
      cases member
  | cons item items ih =>
      change (step item >>= fun _ => items.forM step) = .ok () at done
      obtain ⟨_, first, rest⟩ := bind_eq_ok.mp done
      exact List.forall_mem_cons.mpr ⟨first, ih rest⟩

theorem forM_of_forall {ε α : Type} {step : α → Except ε Unit} {items : List α}
    (done : ∀ item ∈ items, step item = .ok ()) : items.forM step = .ok () := by
  induction items with
  | nil => rfl
  | cons item items ih =>
      have parts := List.forall_mem_cons.mp done
      change (step item >>= fun _ => items.forM step) = .ok ()
      exact bind_eq_ok.mpr ⟨(), parts.1, ih parts.2⟩

theorem mapM_eq_ok {ε α β : Type} {step : α → Except ε β} {items : List α} {results : List β}
    (done : items.mapM step = .ok results) : ∀ item ∈ items, ∃ result, step item = .ok result := by
  induction items generalizing results with
  | nil =>
      intro item member
      cases member
  | cons item items ih =>
      rw [List.mapM_cons] at done
      obtain ⟨result, first, later⟩ := bind_eq_ok.mp done
      obtain ⟨others, rest, _⟩ := bind_eq_ok.mp later
      exact List.forall_mem_cons.mpr ⟨⟨result, first⟩, ih rest⟩

theorem foldlM_eq_ok {ε α β : Type} {step : β → α → Except ε β} {items : List α} {start result : β}
    (done : items.foldlM step start = .ok result) :
    ∀ item ∈ items, ∃ before after, step before item = .ok after := by
  induction items generalizing start with
  | nil =>
      intro item member
      cases member
  | cons item items ih =>
      rw [List.foldlM_cons] at done
      obtain ⟨middle, first, rest⟩ := bind_eq_ok.mp done
      exact List.forall_mem_cons.mpr ⟨⟨start, middle, first⟩, ih rest⟩

/-- Steps in a row fail at the first one that fails, from what the ones before it made. -/
theorem foldlM_eq_error_iff {ε α β : Type} {step : β → α → Except ε β} {items : List α}
    {start : β} {fault : ε} :
    items.foldlM step start = .error fault ↔
      ∃ before item after middle, items = before ++ item :: after ∧
        before.foldlM step start = .ok middle ∧ step middle item = .error fault := by
  induction items generalizing start with
  | nil =>
      constructor
      · intro impossible
        cases impossible
      · rintro ⟨before, item, after, middle, split, _⟩
        simp at split
  | cons first items ih =>
      rw [List.foldlM_cons]
      constructor
      · intro failed
        rcases bind_eq_error.mp failed with here | ⟨next, done, later⟩
        · exact ⟨[], first, items, start, rfl, rfl, here⟩
        · obtain ⟨before, item, after, middle, rfl, beforeDone, fails⟩ := ih.mp later
          refine ⟨first :: before, item, after, middle, rfl, ?_, fails⟩
          rw [List.foldlM_cons]
          exact bind_eq_ok.mpr ⟨next, done, beforeDone⟩
      · rintro ⟨before, item, after, middle, split, done, fails⟩
        cases before with
        | nil =>
            cases split
            cases done
            exact bind_eq_error.mpr (.inl fails)
        | cons other before =>
            cases split
            rw [List.foldlM_cons] at done
            obtain ⟨next, firstDone, later⟩ := bind_eq_ok.mp done
            exact bind_eq_error.mpr
              (.inr ⟨next, firstDone, ih.mpr ⟨before, item, after, middle, rfl, later, fails⟩⟩)

/-! ### States -/

def attempt {ε σ α : Type} (action : ExceptT ε (StateM σ) α) (state : σ) : Except ε α × σ :=
  StateT.run (ExceptT.run action) state

theorem run_bind {σ α β : Type} {action : StateM σ α} (next : α → StateM σ β) {state later : σ}
    {value : α} (done : StateT.run action state = (value, later)) :
    StateT.run (action >>= next) state = StateT.run (next value) later := by
  rw [StateT.run_bind, done]
  rfl

theorem attempt_bind {ε σ α β : Type} (action : ExceptT ε (StateM σ) α)
    (next : α → ExceptT ε (StateM σ) β) (state : σ) :
    attempt (action >>= next) state =
      match attempt action state with
      | (.ok value, later) => attempt (next value) later
      | (.error fault, later) => (.error fault, later) := by
  change StateT.run (ExceptT.run action >>= ExceptT.bindCont next) state = _
  rw [StateT.run_bind]
  change (match StateT.run (ExceptT.run action) state with
    | (answer, later) => StateT.run (ExceptT.bindCont next answer) later) = _
  unfold attempt
  rcases StateT.run (ExceptT.run action) state with ⟨answer | answer, later⟩
  · rfl
  · rfl

theorem attempt_bind_ok {ε σ α β : Type} {action : ExceptT ε (StateM σ) α}
    (next : α → ExceptT ε (StateM σ) β) {state later : σ} {value : α}
    (done : attempt action state = (.ok value, later)) :
    attempt (action >>= next) state = attempt (next value) later := by
  rw [attempt_bind, done]

theorem attempt_bind_error {ε σ α β : Type} {action : ExceptT ε (StateM σ) α}
    (next : α → ExceptT ε (StateM σ) β) {state later : σ} {fault : ε}
    (failed : attempt action state = (.error fault, later)) :
    attempt (action >>= next) state = (.error fault, later) := by
  rw [attempt_bind, failed]

theorem attempt_bind_eq_ok {ε σ α β : Type} {action : ExceptT ε (StateM σ) α}
    {next : α → ExceptT ε (StateM σ) β} {state later : σ} {result : β} :
    attempt (action >>= next) state = (.ok result, later) ↔
      ∃ value middle, attempt action state = (.ok value, middle) ∧
        attempt (next value) middle = (.ok result, later) := by
  rcases first : attempt action state with ⟨fault | value, middle⟩
  · rw [attempt_bind_error next first]
    simp
  · rw [attempt_bind_ok next first]
    constructor
    · intro succeeded
      exact ⟨value, middle, rfl, succeeded⟩
    · rintro ⟨_, _, same, succeeded⟩
      cases same
      exact succeeded

theorem attempt_bind_eq_error {ε σ α β : Type} {action : ExceptT ε (StateM σ) α}
    {next : α → ExceptT ε (StateM σ) β} {state later : σ} {fault : ε} :
    attempt (action >>= next) state = (.error fault, later) ↔
      attempt action state = (.error fault, later) ∨
        ∃ value middle, attempt action state = (.ok value, middle) ∧
          attempt (next value) middle = (.error fault, later) := by
  rcases first : attempt action state with ⟨other | value, middle⟩
  · rw [attempt_bind_error next first]
    simp
  · rw [attempt_bind_ok next first]
    constructor
    · intro failed
      exact .inr ⟨value, middle, rfl, failed⟩
    · rintro (impossible | ⟨_, _, same, failed⟩)
      · cases impossible
      · cases same
        exact failed

theorem attempt_liftM {ε σ α : Type} (action : StateM σ α) (state : σ) :
    attempt (liftM action : ExceptT ε (StateM σ) α) state =
      (.ok (StateT.run action state).1, (StateT.run action state).2) :=
  rfl

theorem attempt_tryCatch {ε σ α : Type} (action : ExceptT ε (StateM σ) α)
    (handle : ε → ExceptT ε (StateM σ) α) (state : σ) :
    attempt (tryCatch action handle) state =
      match attempt action state with
      | (.ok value, later) => (.ok value, later)
      | (.error fault, later) => attempt (handle fault) later := by
  change StateT.run (ExceptT.run action >>= fun answer => match answer with
    | .ok value => pure (.ok value)
    | .error fault => handle fault) state = _
  rcases done : attempt action state with ⟨fault | value, later⟩
  · exact run_bind _ done
  · exact run_bind _ done

/-- The answer of a step that gives the next state or fails, and the state it leaves
behind: the next one, or the one before a step that fails. -/
def stepped {ε σ : Type} (state : σ) : Except ε σ → Except ε Unit × σ
  | .ok later => (.ok (), later)
  | .error fault => (.error fault, state)

theorem stepped_eq_ok_iff {ε σ : Type} {state later : σ} {step : Except ε σ} :
    stepped state step = (.ok (), later) ↔ step = .ok later := by
  cases step with
  | error fault => simp [stepped]
  | ok next => simp [stepped]

theorem stepped_eq_error_iff {ε σ : Type} {state later : σ} {step : Except ε σ} {fault : ε} :
    stepped state step = (.error fault, later) ↔ step = .error fault ∧ later = state := by
  cases step with
  | error other => simp [stepped, eq_comm]
  | ok next => simp [stepped]

/-! ### Agreement -/

/-- Both computations fail with the same fault, or both succeed and their results
are related. -/
inductive Agree {ε α β : Type} (related : α → β → Prop) : Except ε α → Except ε β → Prop
  | failed (fault : ε) : Agree related (.error fault) (.error fault)
  | done {left : α} {right : β} : related left right → Agree related (.ok left) (.ok right)

theorem Agree.bind {ε α β γ δ : Type} {related : α → β → Prop} {relatedNext : γ → δ → Prop}
    {left : Except ε α} {right : Except ε β} {leftNext : α → Except ε γ}
    {rightNext : β → Except ε δ} (agree : Agree related left right)
    (next : ∀ leftValue rightValue, related leftValue rightValue →
      Agree relatedNext (leftNext leftValue) (rightNext rightValue)) :
    Agree relatedNext (left >>= leftNext) (right >>= rightNext) := by
  cases agree with
  | failed fault => exact .failed fault
  | done both => exact next _ _ both

theorem Agree.mono {ε α β : Type} {related other : α → β → Prop} {left : Except ε α}
    {right : Except ε β} (agree : Agree related left right)
    (implies : ∀ leftValue rightValue, related leftValue rightValue →
      other leftValue rightValue) : Agree other left right := by
  cases agree with
  | failed fault => exact .failed fault
  | done both => exact .done (implies _ _ both)

theorem Agree.map_left {ε α β γ : Type} {related : α → β → Prop} {other : γ → β → Prop}
    {left : Except ε α} {right : Except ε β} (agree : Agree related left right) (f : α → γ)
    (maps : ∀ leftValue rightValue, related leftValue rightValue →
      other (f leftValue) rightValue) :
    Agree other (left >>= fun value => pure (f value)) right := by
  cases agree with
  | failed fault => exact .failed fault
  | done both => exact .done (maps _ _ both)

theorem Agree.foldlM {ε α β γ : Type} {related : α → β → Prop} {leftStep : α → γ → Except ε α}
    {rightStep : β → γ → Except ε β}
    (step : ∀ item left right, related left right →
      Agree related (leftStep left item) (rightStep right item))
    (items : List γ) {left : α} {right : β} (start : related left right) :
    Agree related (items.foldlM leftStep left) (items.foldlM rightStep right) := by
  induction items generalizing left right with
  | nil => exact .done start
  | cons item items ih =>
      rw [List.foldlM_cons, List.foldlM_cons]
      exact (step item left right start).bind fun _ _ both => ih both

end Versioning
