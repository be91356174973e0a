import Versioning.Proofs.Store.Memory
import Versioning.Proofs.Store.Tree

/-!
Files in memory and the same files in a directory.

A plain path has nothing but names in it, so it leads straight down from a directory, and
different plain paths lead to different files. Files at plain paths are then read and
replaced in a tree as they are in memory.
-/

namespace Versioning

/-! ### Plain paths -/

namespace Path

/-- A relative path of one or more names, none of which is `..`. -/
def IsPlain (path : String) : Prop :=
  ∀ segment ∈ segments path, isName segment = true ∧ segment ≠ ".."

instance (path : String) : Decidable (IsPlain path) :=
  inferInstanceAs (Decidable (∀ segment ∈ segments path, _))

variable {path other : String}

private theorem IsPlain.isAbsolute (plain : IsPlain path) : isAbsolute path = false := by
  rw [Bool.eq_false_iff]
  intro absolute
  obtain ⟨_, _, shape⟩ := (isAbsolute_iff_segments path).mp absolute
  have empty := plain "" (shape ▸ List.mem_cons_self)
  cases empty.1

private theorem IsPlain.steps (plain : IsPlain path) : steps path = segments path :=
  List.filter_eq_self.mpr fun segment member => (plain segment member).1

theorem IsPlain.ofText (plain : IsPlain path) :
    ofText path = { absolute := false, names := segments path } := by
  have here : (segments path).head? ≠ some "." := by
    intro head
    cases (plain "." (List.mem_of_head? head)).1
  have names := plain.steps
  unfold Path.steps at names
  simp [Path.ofText, plain.isAbsolute, here, names]

theorem IsPlain.ofText_eq_iff (plain : IsPlain path) (otherPlain : IsPlain other) :
    Path.ofText path = Path.ofText other ↔ path = other := by
  rw [plain.ofText, otherPlain.ofText, ← segments_inj]
  simp

/-- A plain path ends with its last name. -/
private theorem IsPlain.exists_last (plain : IsPlain path) :
    ∃ above name, segments path = above ++ [name] ∧ isName name = true ∧ name ≠ ".." := by
  have split := List.dropLast_append_getLast (segments_ne_nil path)
  have last := plain _ (List.getLast_mem (segments_ne_nil path))
  exact ⟨_, _, split.symm, last⟩

private theorem IsPlain.join_ne_empty (plain : IsPlain path) (root : String) :
    join root path ≠ "" := by
  intro empty
  obtain ⟨front, shape, _⟩ := exists_segments_join plain.isAbsolute root
  obtain ⟨above, name, split, named, _⟩ := plain.exists_last
  have last := congrArg List.getLast? shape
  rw [empty, split, ← List.append_assoc, List.getLast?_concat] at last
  cases last
  cases named

end Path

namespace Tree

variable {tree later : Tree} {root path text : String} {base : List String}

def startOf (tree : Tree) (path : String) : List String :=
  if Path.isAbsolute path then [] else tree.workingDirectory

def IsDirectoryAt (tree : Tree) (root : String) (base : List String) : Prop :=
  (Path.segments root).foldlM tree.enter (tree.startOf root) = .ok base

/-- A file can be at a path below a directory: there are directories all the way, and the path
is one that the system takes. -/
structure Ordinary (tree : Tree) (root : String) (base : List String) (path : String) :
    Prop where
  directories : ∀ depth < (Path.segments path).length,
    tree.node? (base ++ (Path.segments path).take depth) = some .directory
  noZero : '\x00' ∉ (Path.join root path).toList
  short : (Path.join root path).utf8ByteSize ≤ pathLimit
  names : ∀ name ∈ Path.segments path, name.utf8ByteSize ≤ nameLimit

/-! ### Where plain paths lead -/

private theorem enter_directory {names : List String} {segment : String}
    (named : Path.isName segment = true) (forward : segment ≠ "..")
    (short : segment.utf8ByteSize ≤ nameLimit)
    (directory : tree.node? (names ++ [segment]) = some .directory) :
    tree.enter names segment = .ok (names ++ [segment]) := by
  have fits : ¬ segment.utf8ByteSize > nameLimit := Nat.not_lt.mpr short
  simp [enter, child?, named, forward, fits, directory]

private theorem eq_append_of_enter {names below : List String} {segment : String}
    (named : Path.isName segment = true) (forward : segment ≠ "..")
    (entered : tree.enter names segment = .ok below) : below = names ++ [segment] := by
  simp only [enter, named, Bool.not_true, Bool.false_eq_true, if_false, beq_iff_eq, forward]
    at entered
  split at entered
  next => cases entered
  next => cases entered
  next => cases entered
  next => exact (Except.ok.inj entered).symm

private theorem foldlM_enter_directories {names start : List String}
    (plain : ∀ segment ∈ names, Path.isName segment = true ∧ segment ≠ "..")
    (short : ∀ segment ∈ names, segment.utf8ByteSize ≤ nameLimit)
    (directories : ∀ above rest, names = above ++ rest → above ≠ [] →
      tree.node? (start ++ above) = some .directory) :
    names.foldlM tree.enter start = .ok (start ++ names) := by
  induction names generalizing start with
  | nil => rw [List.append_nil]; rfl
  | cons segment names ih =>
      obtain ⟨⟨named, forward⟩, laterPlain⟩ := List.forall_mem_cons.mp plain
      obtain ⟨fits, laterShort⟩ := List.forall_mem_cons.mp short
      have entered := enter_directory named forward fits
        (directories [segment] names rfl (List.cons_ne_nil _ _))
      rw [List.foldlM_cons, entered, List.append_cons start segment names]
      refine ih laterPlain laterShort fun above rest split _ => ?_
      rw [← List.append_cons]
      exact directories (segment :: above) rest (congrArg _ split) (List.cons_ne_nil _ _)

private theorem eq_append_of_foldlM_enter {names start below : List String}
    (plain : ∀ segment ∈ names, Path.isName segment = true ∧ segment ≠ "..")
    (entered : names.foldlM tree.enter start = .ok below) : below = start ++ names := by
  induction names generalizing start with
  | nil =>
      cases entered
      rw [List.append_nil]
  | cons segment names ih =>
      obtain ⟨⟨named, forward⟩, laterPlain⟩ := List.forall_mem_cons.mp plain
      rw [List.foldlM_cons] at entered
      obtain ⟨middle, first, later⟩ := bind_eq_ok.mp entered
      rw [ih laterPlain later, eq_append_of_enter named forward first, ← List.append_cons]

/-- A path that is joined to the one of a directory goes on from that directory. -/
private theorem follow_join (directory : tree.IsDirectoryAt root base) (plain : Path.IsPlain path) :
    tree.follow (tree.startOf (Path.join root path)) (Path.segments (Path.join root path)) =
      tree.follow base (Path.segments path) := by
  obtain ⟨front, shape, same⟩ := Path.exists_segments_join plain.isAbsolute root
  obtain ⟨above, name, split, named, _⟩ := plain.exists_last
  have going : (Path.segments path).all (· == "") = false := by
    rw [List.all_eq_false]
    exact ⟨name, by simp [split], by simpa using Path.ne_empty_of_isName named⟩
  have start : tree.startOf (Path.join root path) = tree.startOf root := by
    rw [startOf, startOf, Path.isAbsolute_join plain.isAbsolute]
  have entered : front.foldlM tree.enter (tree.startOf root) = .ok base := by
    rw [← foldlM_enter_filter, same, Path.steps, foldlM_enter_filter]
    exact directory
  rw [shape, follow_append _ _ _ going, start, entered]
  rfl

/-- A plain path leads to a file that lies straight below the directory. -/
private theorem eq_append_of_place {parent : List String} {name : String} {slash : Bool}
    (directory : tree.IsDirectoryAt root base) (plain : Path.IsPlain path)
    (placed : tree.place (Path.join root path) = .ok (.entry parent name slash)) :
    parent ++ [name] = base ++ Path.segments path := by
  have led := (follow_join directory plain).symm.trans (placeFrom_of_place placed)
  obtain ⟨above, last, split, named, forward⟩ := plain.exists_last
  have plainAbove : ∀ segment ∈ above, Path.isName segment = true ∧ segment ≠ ".." :=
    fun segment member => plain segment (split ▸ List.mem_append_left [last] member)
  have going : [last].all (· == "") = false := by
    simp [Path.ne_empty_of_isName named]
  rw [split, follow_append _ _ _ going] at led
  obtain ⟨below, entered, there⟩ := bind_eq_ok.mp led
  rw [follow_last _ _ named forward] at there
  cases there
  rw [eq_append_of_foldlM_enter plainAbove entered, split, List.append_assoc]

theorem place_join (directory : tree.IsDirectoryAt root base) (plain : Path.IsPlain path)
    (ordinary : tree.Ordinary root base path) :
    ∃ parent name, tree.place (Path.join root path) = .ok (.entry parent name false) ∧
      tree.child? parent name = .ok (tree.node? (base ++ Path.segments path)) := by
  obtain ⟨above, last, split, named, forward⟩ := plain.exists_last
  have going : [last].all (· == "") = false := by
    simp [Path.ne_empty_of_isName named]
  have entered : above.foldlM tree.enter base = .ok (base ++ above) := by
    refine foldlM_enter_directories ?_ ?_ ?_
    · exact fun segment member => plain segment (split ▸ List.mem_append_left [last] member)
    · exact fun name member => ordinary.names name (split ▸ List.mem_append_left [last] member)
    · intro upper rest whole _
      have shape : Path.segments path = upper ++ (rest ++ [last]) := by
        rw [split, whole, List.append_assoc]
      have upperHere := ordinary.directories upper.length (by simp [shape])
      rwa [shape, List.take_left] at upperHere
  have short : ¬ last.utf8ByteSize > nameLimit :=
    Nat.not_lt.mpr (ordinary.names last (by simp [split]))
  refine ⟨base ++ above, last, ?_, ?_⟩
  · have fits : ¬ (Path.join root path).utf8ByteSize > pathLimit := Nat.not_lt.mpr ordinary.short
    unfold Tree.place
    rw [if_neg (by simpa using ordinary.noZero), if_neg (by simpa using plain.join_ne_empty root),
      if_neg fits]
    refine (follow_join directory plain).trans ?_
    rw [split, follow_append _ _ _ going, entered]
    exact follow_last tree (base ++ above) named forward
  · rw [child?, if_neg short, split, List.append_assoc]

/-! ### Reading and writing at plain paths -/

theorem node?_of_readText (directory : tree.IsDirectoryAt root base) (plain : Path.IsPlain path)
    (read : tree.readText (Path.join root path) = .ok text) :
    ∃ access, tree.node? (base ++ Path.segments path) = some (.file text.toUTF8 access) := by
  obtain ⟨parent, name, access, placed, found, _⟩ := read_eq_ok (readText_eq_ok_iff.mp read)
  rw [← eq_append_of_place directory plain placed]
  exact ⟨access, node?_of_child? found⟩

theorem readText_of_node? (directory : tree.IsDirectoryAt root base) (plain : Path.IsPlain path)
    (ordinary : tree.Ordinary root base path)
    (stored : tree.node? (base ++ Path.segments path) = some (.file text.toUTF8)) :
    tree.readText (Path.join root path) = .ok text := by
  obtain ⟨parent, name, placed, found⟩ := place_join directory plain ordinary
  rw [readText_eq_ok_iff, Tree.read, Tree.open?, placed]
  rw [stored] at found
  simp only [bind, Except.bind, found]
  rfl

/-- A text that was read at a plain path can be replaced if its file can be written. -/
private theorem exists_writeText (directory : tree.IsDirectoryAt root base)
    (plain : Path.IsPlain path)
    (free : ∀ content access,
      tree.node? (base ++ Path.segments path) = some (.file content access) → access = .free)
    (read : tree.readText (Path.join root path) = .ok text) (new : String) :
    ∃ later, tree.writeText (Path.join root path) new = .ok later := by
  obtain ⟨parent, name, access, placed, found, _⟩ := read_eq_ok (readText_eq_ok_iff.mp read)
  have stored := node?_of_child? found
  rw [eq_append_of_place directory plain placed] at stored
  cases free _ _ stored
  unfold writeText Tree.write
  rw [placed]
  simp only [bind, Except.bind, found]
  exact ⟨_, rfl⟩

/-! ### What a write keeps -/

private theorem SameShape.isDirectoryAt (shape : SameShape tree later)
    (directory : tree.IsDirectoryAt root base) : later.IsDirectoryAt root base := by
  have enters : later.enter = tree.enter := funext fun names => funext (shape.enter names)
  unfold IsDirectoryAt startOf
  rw [enters, shape.workingDirectory]
  exact directory

private theorem SameShape.node?_directory (shape : SameShape tree later) {names : List String}
    (directory : tree.node? names = some .directory) : later.node? names = some .directory := by
  have kinds := shape.kinds names
  rw [directory] at kinds
  obtain ⟨node, found, kind⟩ := Option.map_eq_some_iff.mp kinds
  cases node with
  | directory => exact found
  | file content access => cases kind

theorem SameShape.ordinary (shape : SameShape tree later)
    (ordinary : tree.Ordinary root base path) : later.Ordinary root base path :=
  { ordinary with
    directories := fun depth inside =>
      shape.node?_directory (ordinary.directories depth inside) }

end Tree

/-! ### The same files -/

def SameContents (base : List String) (tree : Tree) (memory : Memory) : Prop :=
  ∀ path, Path.IsPlain path → ∀ text,
    tree.node? (base ++ Path.segments path) = some (.file text.toUTF8) ↔
      memory.content? path = some text

/-- All files in memory can be written, and those at plain paths are ordinary files below the
directory that `root` leads to, which can be read and written. So no file lies below another. -/
structure Mirrors (root : String) (base : List String) (tree : Tree) (memory : Memory) :
    Prop where
  directory : tree.IsDirectoryAt root base
  ordinary : ∀ path, Path.IsPlain path → memory.content? path ≠ none → tree.Ordinary root base path
  free : ∀ path, Path.IsPlain path → ∀ content access,
    tree.node? (base ++ Path.segments path) = some (.file content access) → access = .free
  writable : memory.readOnly = []
  same : SameContents base tree memory

namespace Mirrors

variable {root path : String} {base : List String} {tree later : Tree} {memory : Memory}
  {text old new : String}

private theorem resolve_of_plain (plain : Path.IsPlain path) (root : String) :
    Disk.resolve (some root) path = Path.join root path := by
  simp [Disk.resolve, plain.isAbsolute]

theorem readText_eq_ok_iff (mirrors : Mirrors root base tree memory) (plain : Path.IsPlain path) :
    tree.readText (Path.join root path) = .ok text ↔ memory.read path = .ok text := by
  rw [Memory.read_eq_ok_iff, ← mirrors.same path plain]
  constructor
  · intro read
    obtain ⟨access, stored⟩ := Tree.node?_of_readText mirrors.directory plain read
    cases mirrors.free path plain _ _ stored
    exact stored
  · intro stored
    have held := (mirrors.same path plain text).mp stored
    have ordinary := mirrors.ordinary path plain (by simp [held])
    exact Tree.readText_of_node? mirrors.directory plain ordinary stored

/-- A text that is replaced in both leaves the same files. -/
private theorem replaced (mirrors : Mirrors root base tree memory) (plain : Path.IsPlain path)
    (read : tree.readText (Path.join root path) = .ok old)
    (written : tree.writeText (Path.join root path) new = .ok later) :
    Mirrors root base later (memory.insert path new) := by
  have stored := Tree.readText_eq_ok_iff.mp read
  have made := Tree.write_of_writeText written
  have held := Memory.read_eq_ok_iff.mp ((mirrors.readText_eq_ok_iff plain).mp read)
  obtain ⟨parent, name, access, placed, _, was, nodes⟩ := Tree.write_of_read stored made
  rw [Tree.eq_append_of_place mirrors.directory plain placed] at was nodes
  cases mirrors.free path plain _ _ was
  have shape := Tree.SameShape.of_write stored made
  refine ⟨shape.isDirectoryAt mirrors.directory, fun other otherPlain present => ?_,
    fun other otherPlain content access there => ?_, mirrors.writable,
    fun other otherPlain text => ?_⟩
  · refine shape.ordinary (mirrors.ordinary other otherPlain fun absent => present ?_)
    rw [Memory.content?_insert, if_neg ?_, absent]
    intro same
    rw [Memory.content?_congr same, held] at absent
    cases absent
  · rw [nodes] at there
    split at there
    next =>
      cases there
      rfl
    next => exact mirrors.free other otherPlain content access there
  · rw [nodes, Memory.content?_insert]
    by_cases here : other = path
    · rw [if_pos (by rw [here]), if_pos (by rw [here])]
      simp [String.toUTF8, String.toByteArray_inj]
    · have apart : base ++ Path.segments other ≠ base ++ Path.segments path :=
        fun equal => here (Path.segments_inj.mp (List.append_cancel_left equal))
      rw [if_neg apart, if_neg (mt (otherPlain.ofText_eq_iff plain).mp here)]
      exact mirrors.same other otherPlain text

theorem byKind_read (mirrors : Mirrors root base tree memory) (plain : Path.IsPlain path) :
    byKind (tree.readText (Path.join root path)) = byKind (memory.read path) := by
  have reads : ∀ text,
      tree.readText (Path.join root path) = .ok text ↔ memory.read path = .ok text :=
    fun _ => mirrors.readText_eq_ok_iff plain
  cases read : memory.read path with
  | ok text => rw [(reads text).mpr read]
  | error error =>
      cases treeRead : tree.readText (Path.join root path) with
      | ok text =>
          rw [(reads text).mp treeRead] at read
          cases read
      | error treeError =>
          obtain ⟨fault, rfl⟩ := Tree.readText_eq_error treeRead
          rw [Memory.read_eq_error read]
          rfl

theorem match_textFiles (root : String) (base : List String) :
    (Tree.textFiles (some root)).Match Memory.textFiles Path.IsPlain (Mirrors root base) := by
  refine ⟨?_, ?_⟩
  · intro tree memory path mirrors plain
    change byKind (tree.readText (Disk.resolve (some root) path)) = byKind (memory.read path)
    rw [resolve_of_plain plain]
    exact mirrors.byKind_read plain
  · intro tree memory path old new mirrors plain read held
    change tree.readText (Disk.resolve (some root) path) = .ok old at read
    change ∃ later otherLater, tree.writeText (Disk.resolve (some root) path) new = .ok later ∧
      memory.write path new = .ok otherLater ∧ Mirrors root base later otherLater
    rw [resolve_of_plain plain] at read ⊢
    obtain ⟨later, written⟩ :=
      Tree.exists_writeText mirrors.directory plain (mirrors.free path plain) read new
    refine ⟨later, memory.insert path new, written, ?_, mirrors.replaced plain read written⟩
    rw [Memory.write_eq_ok_iff, mirrors.writable]
    exact ⟨List.not_mem_nil, rfl⟩

end Mirrors

end Versioning
