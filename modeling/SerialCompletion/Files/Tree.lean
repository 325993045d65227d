import SerialCompletion.Files.Path
import SerialCompletion.Text.Basic

/-!
# File trees

Files and directories as plain data, with a working directory.  A path is
first located, that is, taken to the list of names that leads to it from the
root; every operation then reads or replaces the node at that place.
-/

namespace SerialCompletion.Files

/-!
## Directory entries

What a listing says of each entry of a directory.  The order of a listing has
no meaning.
-/

/--
One entry of a directory.  The name is text: what is no text in the name on
disk has been replaced.  The entries of a directory have different names as
long as those on disk are texts.
-/
structure Entry where
  name : Text
  isDirectory : Bool
  deriving DecidableEq, Repr

/-- The entries at a path; none for a path that cannot be listed. -/
abbrev Lister := Text → List Entry

/-! ## Nodes -/

inductive Node where
  | file (content : Text)
  | directory (entries : List (Text × Node))
  deriving Repr

namespace Node

def lookup (name : Text) : List (Text × Node) → Option Node
  | [] => none
  | (found, node) :: rest => if found = name then some node else lookup name rest

def store (name : Text) (node : Node) : List (Text × Node) → List (Text × Node)
  | [] => [(name, node)]
  | (found, old) :: rest =>
      if found = name then (name, node) :: rest else (found, old) :: store name node rest

def descend? : Node → List Text → Option Node
  | node, [] => some node
  | .file _, _ :: _ => none
  | .directory entries, name :: rest =>
      match lookup name entries with
      | none => none
      | some child => child.descend? rest

/-- Put a node at the end of some names, whose directories are there. -/
def replaceAt : Node → List Text → Node → Node
  | _, [], new => new
  | .file content, _ :: _, _ => .file content
  | .directory entries, name :: rest, new =>
      match lookup name entries, rest with
      | some child, _ => .directory (store name (child.replaceAt rest new) entries)
      | none, [] => .directory (store name new entries)
      | none, _ :: _ => .directory entries

def isDirectory : Node → Bool
  | .file _ => false
  | .directory _ => true

end Node

/-- All files, and the names that lead from the root to the working directory. -/
structure Tree where
  root : Node
  working : List Text
  deriving Repr

namespace Tree

def withWorking (name : Text) : Tree :=
  ⟨.directory [(name, .directory [])], [name]⟩

def step (tree : Tree) (place : List Text) (part : Part) : Except Fault (List Text) :=
  match tree.root.descend? place with
  | some (.directory entries) =>
      match part with
      | .above => .ok place.dropLast
      | .name name =>
          match Node.lookup name entries with
          | none => .error .notFound
          | some _ => .ok (place ++ [name])
  | some (.file _) => .error .notDirectory
  | none => .error .notFound

def origin (tree : Tree) (path : Path) : List Text :=
  if path.absolute then [] else tree.working

/-- The place and the node that a path leads to. -/
def locate (tree : Tree) (path : Path) : Except Fault (List Text × Node) := do
  let place ← path.parts.foldlM tree.step (tree.origin path)
  match tree.root.descend? place with
  | none => throw .notFound
  | some node =>
      if path.ending ≠ .name && !node.isDirectory then throw .notDirectory
      return (place, node)

def contains (tree : Tree) (path : Text) : Bool :=
  (Path.ofText path >>= tree.locate).isOk

def read (tree : Tree) (path : Text) : Except Fault Text := do
  match ← Path.ofText path >>= tree.locate with
  | (_, .file content) => return content
  | (_, .directory _) => throw .isDirectory

/-- The entries of a directory, or none for a path that names no directory. -/
def list (tree : Tree) (path : Text) : List Entry :=
  match Path.ofText path >>= tree.locate with
  | .ok (_, .directory entries) => entries.map fun entry => ⟨entry.1, entry.2.isDirectory⟩
  | _ => []

/-- The place and the content of the file that opening a path for writing gives. -/
def openFile (tree : Tree) (path : Path) : Except Fault (List Text × Text) := do
  match path.lastName? with
  | none =>
      let _ ← tree.locate path
      throw .isDirectory
  | some name =>
      match ← tree.locate path.parent with
      | (_, .file _) => throw .notDirectory
      | (place, .directory entries) =>
          if path.ending = .slash then throw .isDirectory
          match Node.lookup name entries with
          | none => return (place ++ [name], [])
          | some (.file content) => return (place ++ [name], content)
          | some (.directory _) => throw .isDirectory

def put (tree : Tree) (place : List Text) (node : Node) : Tree :=
  { tree with root := tree.root.replaceAt place node }

def write (tree : Tree) (path content : Text) : Except Fault Tree := do
  let (place, _) ← Path.ofText path >>= tree.openFile
  return tree.put place (.file content)

def touch (tree : Tree) (path : Text) : Except Fault Tree := do
  let (place, content) ← Path.ofText path >>= tree.openFile
  return tree.put place (.file content)

def makeDirectories (tree : Tree) (place : List Text) : List Part → Except Fault Tree
  | [] => .ok tree
  | .above :: rest => tree.makeDirectories place.dropLast rest
  | .name name :: rest =>
      let inner := place ++ [name]
      match tree.root.descend? inner, rest with
      | some (.directory _), _ => tree.makeDirectories inner rest
      | some (.file _), [] => .error .alreadyExists
      | some (.file _), _ :: _ => .error .notDirectory
      | none, _ => (tree.put inner (.directory [])).makeDirectories inner rest

def createDirectories (tree : Tree) (path : Path) : Except Fault Tree :=
  tree.makeDirectories (tree.origin path) path.parts

def createParents (tree : Tree) (path : Text) : Except Fault Tree :=
  match Path.ofText path with
  | .ok path => tree.createDirectories path.parent
  | .error .notFound => .ok tree
  | .error fault => .error fault

def addFile (tree : Tree) (path content : Text) : Except Fault Tree := do
  (← tree.createParents path).write path content

def addDirectory (tree : Tree) (path : Text) : Except Fault Tree := do
  tree.createDirectories (← Path.ofText path)

end Tree

/-!
## Access to files

The few operations on files that loading, saving and running need.  A file
tree answers them by itself, so a whole run can be followed on plain data; a
program answers them from its disk.
-/

/-- The operations on files inside a monad. -/
structure Access (m : Type → Type) where
  contains : Text → m Bool
  read : Text → m (Except Fault Text)
  write : Text → Text → m (Except Fault Unit)
  touch : Text → m (Except Fault Unit)
  /-- Make the directories above the last part of a path. -/
  createParents : Text → m (Except Fault Unit)
  list : Text → m (List Entry)

namespace Tree

/-- Do an operation that changes a tree, which a fault leaves as it was. -/
def change (operation : Tree → Except Fault Tree) : StateM Tree (Except Fault Unit) := do
  match operation (← get) with
  | .ok tree => do set tree; return .ok ()
  | .error fault => return .error fault

def access : Access (StateM Tree) where
  contains path := return (← get).contains path
  read path := return (← get).read path
  write path content := change fun tree => tree.write path content
  touch path := change fun tree => tree.touch path
  createParents path := change fun tree => tree.createParents path
  list path := return (← get).list path

end Tree

end SerialCompletion.Files
