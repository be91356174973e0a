import Versioning.Proofs.Store.Target
import Versioning.Proofs.Success

/-!
Stores over files that are values.

What a store does can be told by what reading and writing make of the files there are.
Reading leaves them as they are, and so does a write that fails. So a target replaces
what it selects in the very text that was read for it.
-/

namespace Versioning

structure TextFiles (σ : Type) where
  read : σ → String → Except Error String
  write : σ → String → String → Except Error σ

/-- What the store does is to read and write these files. -/
structure TextStore.Over {σ : Type} (store : TextStore (StateM σ)) (files : TextFiles σ) :
    Prop where
  read : ∀ path state, attempt (store.read path) state = (files.read state path, state)
  write : ∀ path text state, attempt (store.write path text) state =
    stepped state (files.write state path text)

namespace TextStore

variable {σ : Type} {store : TextStore (StateM σ)} {files : TextFiles σ}

theorem Over.attempt_readTarget (backed : store.Over files) (target : Target) (state : σ) :
    attempt (store.readTarget target) state =
      ((files.read state target.path).map target.select, state) := by
  unfold readTarget
  rw [attempt_bind, backed.read]
  cases files.read state target.path with
  | error error => rfl
  | ok text =>
      unfold Target.select
      cases target.line with
      | none => rfl
      | some number => rfl

theorem Over.attempt_writeTarget (backed : store.Over files) {target : Target} {state : σ}
    {text : String} (new : String) (found : files.read state target.path = .ok text) :
    attempt (store.writeTarget target new) state =
      stepped state (files.write state target.path (target.replace text new)) := by
  unfold writeTarget Target.replace
  cases target.line with
  | none => exact backed.write target.path new state
  | some number =>
      simp only
      rw [attempt_bind, backed.read, found]
      exact backed.write _ _ state

end TextStore

/-! ### Two kinds of files -/

inductive Error.Kind
  | malformedScheme
  | noMatch
  | unreadable
  | unwritable
  | unknownField
  | fieldOverflow
  | setting
  | notConfiguration
  deriving DecidableEq, Repr

def Error.kind : Error → Error.Kind
  | .malformedScheme _ _ => .malformedScheme
  | .noMatch => .noMatch
  | .unreadable _ _ => .unreadable
  | .unwritable _ _ => .unwritable
  | .unknownField _ _ => .unknownField
  | .fieldOverflow _ _ => .fieldOverflow
  | .setting _ => .setting
  | .notConfiguration _ => .notConfiguration

def byKind {α : Type} (answer : Except Error α) : Except Error.Kind α :=
  answer.mapError Error.kind

theorem byKind_eq_cases {α : Type} {answer other : Except Error α}
    (same : byKind answer = byKind other) :
    (∃ value, answer = .ok value ∧ other = .ok value) ∨
      ∃ error otherError, answer = .error error ∧ other = .error otherError ∧
        error.kind = otherError.kind := by
  cases answer with
  | ok value =>
      cases other with
      | ok otherValue => exact .inl ⟨value, rfl, congrArg Except.ok (Except.ok.inj same).symm⟩
      | error otherError => cases same
  | error error =>
      cases other with
      | ok otherValue => cases same
      | error otherError => exact .inr ⟨error, otherError, rfl, rfl, Except.error.inj same⟩

theorem byKind_error {α : Type} {error other : Error} (same : error.kind = other.kind) :
    byKind (.error error : Except Error α) = byKind (.error other) :=
  congrArg Except.error same

/-- For related states, the paths that count give the same texts, and a text that was read at
one of them can be replaced in both, which leaves related states. -/
structure TextFiles.Match {σ τ : Type} (files : TextFiles σ) (others : TextFiles τ)
    (counts : String → Prop) (related : σ → τ → Prop) : Prop where
  read : ∀ {state other path}, related state other → counts path →
    byKind (files.read state path) = byKind (others.read other path)
  write : ∀ {state other path old} (new : String), related state other → counts path →
    files.read state path = .ok old → others.read other path = .ok old →
    ∃ later otherLater, files.write state path new = .ok later ∧
      others.write other path new = .ok otherLater ∧ related later otherLater

end Versioning
