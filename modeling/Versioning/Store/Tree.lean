import Versioning.Keyed
import Versioning.Store.Disk

/-!
A file system in memory: a tree of directories and files without links.

A path is followed name by name, as a file system does it. Every name but the
last has to lead to a directory; `..` leads to the enclosing directory; and a
slash after the last name asks for a directory. Directories can always be
searched, but a file may be closed to reading or to writing.
-/

namespace Versioning

structure Access where
  readable : Bool
  writable : Bool
  deriving DecidableEq, Repr

def Access.free : Access :=
  { readable := true, writable := true }

inductive Node
  | directory
  | file (content : ByteArray) (access : Access := .free)

/-- The nodes of a file system under the names that lead to them from the top,
and the directory from which relative paths start. The top itself is always a
directory. -/
structure Tree where
  nodes : List (List String × Node)
  workingDirectory : List String

/-- Where a path leads: to a directory that is known to exist, or to a name in
one. `slash` tells that the path goes on with a slash after that name. -/
inductive Place
  | directory (names : List String)
  | entry (parent : List String) (name : String) (slash : Bool)
  deriving DecidableEq, Repr

namespace Tree

def node? (tree : Tree) (names : List String) : Option Node :=
  if names.isEmpty then some .directory
  else (tree.nodes.find? (·.1 == names)).map Prod.snd

-- File systems limit names and paths by their bytes.
def nameLimit : Nat := 255

def pathLimit : Nat := 4095

def child? (tree : Tree) (parent : List String) (name : String) :
    Except FileFault (Option Node) :=
  if name.utf8ByteSize > nameLimit then
    .error .nameTooLong
  else
    .ok (tree.node? (parent ++ [name]))

/-- Follows the segments of a path from the directory `names`. The last name is
not looked up. -/
def follow (tree : Tree) (names : List String) : List String → Except FileFault Place
  | [] => .ok (.directory names)
  | segment :: segments =>
      if ! Path.isName segment then
        tree.follow names segments
      else if segment == ".." then
        tree.follow names.dropLast segments
      else if segments.all (· == "") then
        .ok (.entry names segment (! segments.isEmpty))
      else
        match tree.child? names segment with
        | .error fault => .error fault
        | .ok none => .error .missing
        | .ok (some (.file _ _)) => .error .notDirectory
        | .ok (some .directory) => tree.follow (names ++ [segment]) segments

def place (tree : Tree) (path : String) : Except FileFault Place :=
  if path.toList.contains '\x00' then
    .error .zeroByteInName
  else if path.isEmpty then
    .error .missing
  else if path.utf8ByteSize > pathLimit then
    .error .nameTooLong
  else
    tree.follow (if Path.isAbsolute path then [] else tree.workingDirectory)
      (Path.segments path)

def open? (tree : Tree) (path : String) : Except FileFault Node := do
  match ← tree.place path with
  | .directory _ => return .directory
  | .entry parent name slash =>
      match ← tree.child? parent name with
      | none => throw .missing
      | some .directory => return .directory
      | some (.file content access) =>
          if slash then throw .notDirectory else return .file content access

def pathExists (tree : Tree) (path : String) : Bool :=
  match tree.open? path with
  | .ok _ => true
  | .error _ => false

def read (tree : Tree) (path : String) : Except FileFault ByteArray := do
  match ← tree.open? path with
  | .directory => throw .isDirectory
  | .file content access => if access.readable then return content else throw .denied

abbrev setNode (names : List String) (node : Node) (nodes : List (List String × Node)) :
    List (List String × Node) :=
  Keyed.set names node nodes

def put (tree : Tree) (names : List String) (node : Node) : Tree :=
  { tree with nodes := setNode names node tree.nodes }

/-- Writes a file, creating it if its directory exists, and keeps its permissions. A path
that asks for a directory is refused before its last name is looked up. -/
def write (tree : Tree) (path : String) (content : ByteArray) : Except FileFault Tree := do
  match ← tree.place path with
  | .directory _ => throw .isDirectory
  | .entry parent name slash =>
      if slash then
        throw .isDirectory
      else
        match ← tree.child? parent name with
        | some .directory => throw .isDirectory
        | some (.file _ access) =>
            if access.writable then
              return tree.put (parent ++ [name]) (.file content access)
            else
              throw .denied
        | none => return tree.put (parent ++ [name]) (.file content)

def makeDirectory (tree : Tree) (names : List String) : Tree :=
  (List.range names.length).foldl
    (fun tree depth =>
      let above := names.take (depth + 1)
      if (tree.node? above).isSome then tree
      else tree.put above .directory)
    tree

def disk : Disk (StateM Tree) where
  pathExists path := do return (← get).pathExists path
  read path := do return (← get).read path
  write path content := do
    match (← get).write path content with
    | .ok tree => set tree; return .ok ()
    | .error fault => return .error fault

end Tree

end Versioning
