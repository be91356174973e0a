import Versioning.Proofs.Keyed
import Versioning.Proofs.Path
import Versioning.Proofs.Store.Files
import Versioning.Store.Tree

/-!
Files in a tree.

A path that leads to a name is followed through directories that a write leaves where
they are. So what one write changes is the file it leads to and nothing else, and every
path still leads where it led.
-/

namespace Versioning

def Node.access? : Node → Option Access
  | .directory => none
  | .file _ access => some access

namespace Tree

/-! ### Following paths -/

def enter (tree : Tree) (names : List String) (segment : String) :
    Except FileFault (List String) :=
  if ! Path.isName segment then .ok names
  else if segment == ".." then .ok names.dropLast
  else
    match tree.child? names segment with
    | .error fault => .error fault
    | .ok none => .error .missing
    | .ok (some (.file _ _)) => .error .notDirectory
    | .ok (some .directory) => .ok (names ++ [segment])

private theorem enter_of_not_isName (tree : Tree) (names : List String) {segment : String}
    (nameless : ¬ Path.isName segment = true) : tree.enter names segment = .ok names := by
  simp [enter, nameless]

theorem follow_last (tree : Tree) (names : List String) {name : String}
    (named : Path.isName name = true) (forward : name ≠ "..") :
    tree.follow names [name] = .ok (.entry names name false) := by
  simp [follow, named, forward]

/-- Segments are entered one after the other as long as something comes after them. -/
theorem follow_append (tree : Tree) (start front : List String) {rest : List String}
    (more : rest.all (· == "") = false) :
    tree.follow start (front ++ rest) =
      front.foldlM tree.enter start >>= fun below => tree.follow below rest := by
  induction front generalizing start with
  | nil => rfl
  | cons segment front ih =>
      rw [List.cons_append, List.foldlM_cons, follow, enter, List.all_append, more, Bool.and_false]
      split
      next => exact ih start
      next =>
        split
        next => exact ih start.dropLast
        next =>
          rcases tree.child? start segment with fault | none | directory | ⟨content, access⟩
          · rfl
          · rfl
          · exact ih (start ++ [segment])
          · rfl

/-- A path that leads to a file ends with the name of the file. -/
theorem exists_front_of_follow {tree : Tree} {segments start parent : List String}
    {name : String} (led : tree.follow start segments = .ok (.entry parent name false)) :
    ∃ front, segments = front ++ [name] ∧ Path.isName name = true ∧ name ≠ ".." := by
  induction segments generalizing start with
  | nil => cases led
  | cons segment segments ih =>
      have later : ∀ {start}, tree.follow start segments = .ok (.entry parent name false) →
          ∃ front, segment :: segments = front ++ [name] ∧ Path.isName name = true ∧
            name ≠ ".." := by
        intro start led
        obtain ⟨front, rfl, named⟩ := ih led
        exact ⟨segment :: front, rfl, named⟩
      -- Either this segment is the last one that counts, or the name is found behind it.
      rw [follow] at led
      split at led
      next => exact later led
      next named =>
        split at led
        next => exact later led
        next forward =>
          split at led
          next =>
            simp only [Except.ok.injEq, Place.entry.injEq, Bool.not_eq_eq_eq_not, Bool.not_false,
              List.isEmpty_iff] at led
            obtain ⟨rfl, rfl, rfl⟩ := led
            exact ⟨[], rfl, by simpa using named, by simpa using forward⟩
          next =>
            split at led
            next => cases led
            next => cases led
            next => cases led
            next => exact later led

theorem foldlM_enter_filter (tree : Tree) (start front : List String) :
    (front.filter Path.isName).foldlM tree.enter start = front.foldlM tree.enter start := by
  induction front generalizing start with
  | nil => rfl
  | cons segment front ih =>
      by_cases named : Path.isName segment = true
      · rw [List.filter_cons_of_pos named, List.foldlM_cons, List.foldlM_cons]
        exact congrArg _ (funext ih)
      · rw [List.filter_cons_of_neg named, List.foldlM_cons,
          tree.enter_of_not_isName start named]
        exact ih start

private theorem foldlM_enter_of_follow {tree : Tree} {start front base : List String}
    {name : String}
    (led : tree.follow start (front ++ [name]) = .ok (.entry base name false)) :
    front.foldlM tree.enter start = .ok base := by
  obtain ⟨others, split, named, forward⟩ := exists_front_of_follow led
  have going : [name].all (· == "") = false := by
    simp [Path.ne_empty_of_isName named]
  rw [follow_append _ _ _ going] at led
  obtain ⟨below, entered, last⟩ := bind_eq_ok.mp led
  rw [follow_last _ _ named forward] at last
  cases last
  exact entered

def placeFrom (tree : Tree) (base : List String) (path : String) : Except FileFault Place :=
  tree.follow (if Path.isAbsolute path then [] else base) (Path.segments path)

theorem placeFrom_of_place {tree : Tree} {path : String} {place : Place}
    (placed : tree.place path = .ok place) :
    tree.placeFrom tree.workingDirectory path = .ok place := by
  unfold Tree.place at placed
  split at placed
  next => cases placed
  next =>
    split at placed
    next => cases placed
    next =>
      split at placed
      next => cases placed
      next => exact placed

/-- A path that is joined to the parent of a file leads where it leads from the directory
that the file is in. -/
theorem placeFrom_of_join {tree : Tree} {start base parent : List String}
    {file path own name above : String}
    (beside : tree.placeFrom start file = .ok (.entry base own false))
    (inside : Path.parent? file = some above) (relative : Path.isAbsolute path = false)
    (led : tree.placeFrom start (Path.join above path) = .ok (.entry parent name false)) :
    tree.placeFrom base path = .ok (.entry parent name false) := by
  obtain ⟨front, split, named, _⟩ := exists_front_of_follow beside
  obtain ⟨_, known, absolute, steps⟩ := Path.exists_parent? split named
  cases inside.symm.trans known
  obtain ⟨joined, shape, same⟩ := Path.exists_segments_join relative above
  -- Only names tell where segments lead, and those in front are the ones of the file's directory.
  have entered : joined.foldlM tree.enter (if Path.isAbsolute file then [] else start) =
      .ok base := by
    unfold placeFrom at beside
    rw [split] at beside
    rw [← foldlM_enter_filter, same, steps, foldlM_enter_filter]
    exact foldlM_enter_of_follow beside
  unfold placeFrom at led ⊢
  rw [Path.isAbsolute_join relative, absolute, shape] at led
  obtain ⟨more, whole, counts, _⟩ := exists_front_of_follow led
  have last : name ∈ Path.segments path := by
    have ends : (joined ++ Path.segments path).getLast? = some name := by
      rw [whole, List.getLast?_concat]
    rw [List.getLast?_append_of_ne_nil _ (Path.segments_ne_nil path)] at ends
    exact List.mem_of_getLast? ends
  have going : (Path.segments path).all (· == "") = false := by
    rw [List.all_eq_false]
    exact ⟨name, last, by simpa using Path.ne_empty_of_isName counts⟩
  rw [follow_append _ _ _ going, entered] at led
  rw [relative]
  exact led

/-- The directory that relative paths start from: the one of the configuration file, or
the working directory without one. -/
inductive StartsAt (tree : Tree) : Option String → List String → Prop
  | workingDirectory : StartsAt tree none tree.workingDirectory
  | beside {file own : String} {base : List String} :
      tree.place file = .ok (.entry base own false) → StartsAt tree (some file) base

/-! ### Reading and writing -/

/-- The same names lead to directories and the same names lead to files with the same
permissions, whatever is in the files. -/
structure SameShape (before after : Tree) : Prop where
  workingDirectory : after.workingDirectory = before.workingDirectory
  kinds : ∀ names,
    (after.node? names).map Node.access? = (before.node? names).map Node.access?

theorem SameShape.refl (tree : Tree) : SameShape tree tree :=
  { workingDirectory := rfl, kinds := fun _ => rfl }

theorem SameShape.trans {first second third : Tree} (before : SameShape first second)
    (after : SameShape second third) : SameShape first third :=
  { workingDirectory := after.workingDirectory.trans before.workingDirectory
    kinds := fun names => (after.kinds names).trans (before.kinds names) }

theorem SameShape.enter {before after : Tree} (same : SameShape before after)
    (names : List String) (segment : String) :
    after.enter names segment = before.enter names segment := by
  have kinds := same.kinds (names ++ [segment])
  unfold Tree.enter child?
  by_cases long : segment.utf8ByteSize > nameLimit
  · simp only [long, if_true]
  · simp only [long, if_false]
    generalize after.node? (names ++ [segment]) = now at kinds ⊢
    generalize before.node? (names ++ [segment]) = was at kinds ⊢
    rcases now with _ | _ | _ <;> rcases was with _ | _ | _ <;> first | rfl | cases kinds

theorem SameShape.follow {before after : Tree} (same : SameShape before after)
    (start segments : List String) :
    after.follow start segments = before.follow start segments := by
  induction segments generalizing start with
  | nil => rfl
  | cons segment segments ih =>
      by_cases more : segments.all (· == "") = true
      · rw [Tree.follow, Tree.follow, if_pos more, if_pos more, ih, ih]
      · have going := Bool.eq_false_iff.mpr more
        have entered := fun tree : Tree => tree.follow_append start [segment] going
        simp only [List.singleton_append, List.foldlM_cons, List.foldlM_nil, bind_pure] at entered
        rw [entered, entered, same.enter]
        exact congrArg _ (funext ih)

theorem SameShape.place {before after : Tree} (same : SameShape before after) (path : String) :
    after.place path = before.place path := by
  unfold Tree.place
  rw [same.workingDirectory, same.follow]

theorem node?_of_child? {tree : Tree} {parent : List String} {name : String}
    {child : Option Node} (found : tree.child? parent name = .ok child) :
    tree.node? (parent ++ [name]) = child := by
  unfold child? at found
  split at found
  next => cases found
  next => exact Except.ok.inj found

theorem read_eq_ok {tree : Tree} {path : String} {content : ByteArray}
    (read : tree.read path = .ok content) :
    ∃ parent name access, tree.place path = .ok (.entry parent name false) ∧
      tree.child? parent name = .ok (some (.file content access)) ∧ access.readable = true := by
  obtain ⟨node, opened, isFile⟩ := bind_eq_ok.mp read
  obtain ⟨place, placed, rest⟩ := bind_eq_ok.mp opened
  cases node with
  | directory => cases isFile
  | file stored access =>
    simp only at isFile
    split at isFile
    next readable =>
      cases isFile
      cases place with
      | directory names => cases rest
      | entry parent name slash =>
          obtain ⟨child, found, rest⟩ := bind_eq_ok.mp rest
          rcases child with _ | _ | _
          · cases rest
          · cases rest
          · cases slash with
            | true => cases rest
            | false =>
                cases rest
                exact ⟨parent, name, access, placed, found, readable⟩
    next => cases isFile

theorem node?_put (tree : Tree) {names : List String} (below : names ≠ []) (node : Node)
    (other : List String) :
    (tree.put names node).node? other = if other = names then some node else tree.node? other := by
  by_cases top : other = []
  · simp [node?, top, below.symm]
  · have found := Keyed.find?_set names other node tree.nodes
    simpa [node?, put, top] using found

/-- A file that is read and written keeps its place and its permissions. -/
theorem write_of_read {tree later : Tree} {path : String} {content new : ByteArray}
    (read : tree.read path = .ok content) (written : tree.write path new = .ok later) :
    ∃ parent name access, tree.place path = .ok (.entry parent name false) ∧
      later.workingDirectory = tree.workingDirectory ∧
      tree.node? (parent ++ [name]) = some (.file content access) ∧
      ∀ names, later.node? names =
        if names = parent ++ [name] then some (.file new access) else tree.node? names := by
  obtain ⟨parent, name, access, placed, found, _⟩ := read_eq_ok read
  obtain ⟨_, again, rest⟩ := bind_eq_ok.mp written
  cases placed.symm.trans again
  obtain ⟨_, same, result⟩ := bind_eq_ok.mp rest
  cases found.symm.trans same
  simp only at result
  split at result
  next =>
    cases result
    exact ⟨parent, name, access, placed, rfl, node?_of_child? found,
      tree.node?_put (by simp) (.file new access)⟩
  next => cases result

/-- Writing a file that can be read leaves every name a directory or a file that was one. -/
theorem SameShape.of_write {tree later : Tree} {path : String} {content new : ByteArray}
    (read : tree.read path = .ok content) (written : tree.write path new = .ok later) :
    SameShape tree later := by
  obtain ⟨parent, name, access, _, directory, stored, nodes⟩ := write_of_read read written
  refine ⟨directory, fun names => ?_⟩
  rw [nodes]
  split
  next same =>
    rw [same, stored]
    rfl
  next => rfl

/-! ### The tree as a store -/

theorem fromUTF8?_eq_some_iff {content : ByteArray} {text : String} :
    String.fromUTF8? content = some text ↔ content = text.toUTF8 := by
  constructor
  · intro decoded
    unfold String.fromUTF8? at decoded
    split at decoded
    next =>
      cases decoded
      rfl
    next => cases decoded
  · rintro rfl
    exact dif_pos text.isValidUTF8

def readText (tree : Tree) (path : String) : Except Error String :=
  match tree.read path with
  | .error fault => .error (.unreadable path fault)
  | .ok bytes =>
      match String.fromUTF8? bytes with
      | some text => .ok text
      | none => .error (.unreadable path .notText)

def writeText (tree : Tree) (path text : String) : Except Error Tree :=
  match tree.write path text.toUTF8 with
  | .error fault => .error (.unwritable path fault)
  | .ok later => .ok later

theorem attempt_readText (tree : Tree) (path : String) :
    attempt (disk.readText path) tree = (tree.readText path, tree) := by
  have known : attempt (liftM (disk.read path) : ExceptT Error (StateM Tree) _) tree =
      (.ok (tree.read path), tree) :=
    rfl
  refine (attempt_bind_ok _ known).trans ?_
  unfold readText
  cases tree.read path with
  | error fault => rfl
  | ok bytes =>
      simp only
      cases String.fromUTF8? bytes with
      | none => rfl
      | some text => rfl

theorem run_write (tree : Tree) (path : String) (content : ByteArray) :
    StateT.run (disk.write path content) tree = stepped tree (tree.write path content) := by
  have known : StateT.run (get : StateM Tree Tree) tree = (tree, tree) := rfl
  refine (run_bind _ known).trans ?_
  cases tree.write path content with
  | error fault => rfl
  | ok later => rfl

theorem attempt_writeText (tree : Tree) (path text : String) :
    attempt (disk.writeText path text) tree = stepped tree (tree.writeText path text) := by
  have known : attempt (liftM (disk.write path text.toUTF8) : ExceptT Error (StateM Tree) _) tree =
      (.ok (stepped tree (tree.write path text.toUTF8)).1,
        (stepped tree (tree.write path text.toUTF8)).2) := by
    rw [attempt_liftM, run_write]
  refine (attempt_bind_ok _ known).trans ?_
  unfold writeText
  cases tree.write path text.toUTF8 with
  | error fault => rfl
  | ok later => rfl

def textFiles (root : Option String) : TextFiles Tree where
  read tree path := tree.readText (Disk.resolve root path)
  write tree path text := tree.writeText (Disk.resolve root path) text

theorem over_textFiles (root : Option String) : (disk.store root).Over (textFiles root) where
  read path tree := tree.attempt_readText (Disk.resolve root path)
  write path text tree := tree.attempt_writeText (Disk.resolve root path) text

theorem readText_eq_ok_iff {tree : Tree} {path text : String} :
    tree.readText path = .ok text ↔ tree.read path = .ok text.toUTF8 := by
  unfold readText
  constructor
  · intro read
    split at read
    next => cases read
    next content stored =>
      split at read
      next decoded =>
        cases read
        rw [stored, fromUTF8?_eq_some_iff.mp decoded]
      next => cases read
  · intro stored
    simp only [stored, fromUTF8?_eq_some_iff.mpr rfl]

theorem readText_eq_error {tree : Tree} {path : String} {error : Error}
    (unread : tree.readText path = .error error) : ∃ fault, error = .unreadable path fault := by
  unfold readText at unread
  split at unread
  next =>
    cases unread
    exact ⟨_, rfl⟩
  next =>
    split at unread
    next => cases unread
    next =>
      cases unread
      exact ⟨_, rfl⟩

theorem read_of_readText {tree : Tree} {path text : String}
    (read : tree.readText path = .ok text) : ∃ content, tree.read path = .ok content :=
  ⟨_, readText_eq_ok_iff.mp read⟩

theorem write_of_writeText {tree later : Tree} {path text : String}
    (written : tree.writeText path text = .ok later) :
    tree.write path text.toUTF8 = .ok later := by
  unfold writeText at written
  cases made : tree.write path text.toUTF8 with
  | error fault =>
      rw [made] at written
      cases written
  | ok other =>
      rw [made] at written
      cases written
      rfl

end Tree

end Versioning
