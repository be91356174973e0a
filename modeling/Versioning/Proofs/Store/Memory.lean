import Versioning.Proofs.Keyed
import Versioning.Proofs.Store.Files
import Versioning.Store.Memory

/-!
Reading and writing in memory.

A file that was written is found under every spelling of its path, and no other file
is touched. What an action on a store does to a memory is told by `perform`: its
answer and the memory it leaves behind.
-/

namespace Versioning

namespace Memory

/-! ### Files -/

theorem content?_insert (memory : Memory) (path other text : String) :
    (memory.insert path text).content? other =
      if Path.ofText other = Path.ofText path then some text else memory.content? other :=
  Keyed.find?_set (Path.ofText path) (Path.ofText other) text memory.files

theorem content?_insert_self (memory : Memory) (path text : String) :
    (memory.insert path text).content? path = some text := by
  rw [content?_insert, if_pos rfl]

theorem content?_insert_of_ne (memory : Memory) {path other : String} (text : String)
    (different : Path.ofText other ≠ Path.ofText path) :
    (memory.insert path text).content? other = memory.content? other := by
  rw [content?_insert, if_neg different]

theorem insert_insert {memory : Memory} {path other : String}
    (same : Path.ofText path = Path.ofText other) (text new : String) :
    (memory.insert path text).insert other new = memory.insert other new := by
  unfold insert
  rw [same]
  simp only [Keyed.set_set]

theorem insert_congr {path other : String} (same : Path.ofText path = Path.ofText other)
    (memory : Memory) (text : String) : memory.insert path text = memory.insert other text := by
  rw [insert, insert, same]

theorem insert_comm {memory : Memory} {path other text : String}
    (different : Path.ofText path ≠ Path.ofText other)
    (present : memory.content? path = some text) (new otherNew : String) :
    (memory.insert other otherNew).insert path new =
      (memory.insert path new).insert other otherNew := by
  obtain ⟨file, found, _⟩ := Option.map_eq_some_iff.mp present
  have known : Path.ofText path ∈ memory.files.map Prod.fst := by
    have same : file.1 = Path.ofText path := by simpa using List.find?_some found
    rw [← same]
    exact List.mem_map_of_mem (List.mem_of_find?_eq_some found)
  unfold insert
  simp only [Keyed.set_comm different new otherNew known]

theorem content?_congr {path other : String} (same : Path.ofText path = Path.ofText other)
    (memory : Memory) : memory.content? path = memory.content? other := by
  rw [content?, content?, same]

theorem read_eq_ok_iff {memory : Memory} {path text : String} :
    memory.read path = .ok text ↔ memory.content? path = some text := by
  unfold read
  cases memory.content? path with
  | none => simp
  | some found => simp

theorem read_eq_error {memory : Memory} {path : String} {error : Error}
    (unread : memory.read path = .error error) : error = .unreadable path .unknownEntry := by
  unfold read at unread
  split at unread
  next => cases unread
  next =>
    cases unread
    rfl

theorem write_eq_ok_iff {memory later : Memory} {path text : String} :
    memory.write path text = .ok later ↔
      Path.ofText path ∉ memory.readOnly ∧ later = memory.insert path text := by
  unfold write
  by_cases known : Path.ofText path ∈ memory.readOnly
  · simp [known]
  · simp [known, eq_comm]

/-! ### Actions -/

def perform {α : Type} (action : ExceptT Error (StateM Memory) α) (memory : Memory) :
    Except Error α × Memory :=
  StateT.run (ExceptT.run action) memory

theorem perform_pure {α : Type} (value : α) (memory : Memory) :
    perform (pure value) memory = (.ok value, memory) :=
  rfl

theorem perform_bind_ok {α β : Type} {action : ExceptT Error (StateM Memory) α}
    (next : α → ExceptT Error (StateM Memory) β) {memory later : Memory} {value : α}
    (done : perform action memory = (.ok value, later)) :
    perform (action >>= next) memory = perform (next value) later :=
  attempt_bind_ok next done

theorem perform_bind_error {α β : Type} {action : ExceptT Error (StateM Memory) α}
    (next : α → ExceptT Error (StateM Memory) β) {memory later : Memory} {error : Error}
    (failed : perform action memory = (.error error, later)) :
    perform (action >>= next) memory = (.error error, later) :=
  attempt_bind_error next failed

theorem perform_read (path : String) (memory : Memory) :
    perform (store.read path) memory = (memory.read path, memory) :=
  rfl

theorem perform_write (path text : String) (memory : Memory) :
    perform (store.write path text) memory = stepped memory (memory.write path text) := by
  have known : perform (liftM (get : StateM Memory Memory)) memory = (.ok memory, memory) :=
    rfl
  change perform (liftM (get : StateM Memory Memory) >>= _) memory = _
  rw [perform_bind_ok _ known]
  cases memory.write path text with
  | ok later => rfl
  | error error => rfl

def textFiles : TextFiles Memory :=
  { read := read, write := write }

theorem over_textFiles : store.Over textFiles :=
  { read := perform_read, write := perform_write }

end Memory

end Versioning
