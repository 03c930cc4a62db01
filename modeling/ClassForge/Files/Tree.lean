import ClassForge.Files.Error
import ClassForge.Files.Path

/-! Files and directories, with a working directory from which paths start. A path is followed part
by part, so each of its parts but the last must be a directory that exists, also one that two dots
leave again. -/

namespace ClassForge

/-- The name of a file or directory and those of the directories around it, outwards. -/
abbrev Location := List Bytes

inductive FileNode where
  | directory
  | file (data : Bytes)
deriving DecidableEq, Repr

structure FileTree where
  nodes : List (Location × FileNode) := []
  /-- The working directory. -/
  here : Location := []
deriving Repr

namespace FileTree

/-- What is at a location. The root is always there. -/
def node? (tree : FileTree) : Location → Option FileNode
  | [] => some .directory
  | place => tree.nodes.lookup place

def put (tree : FileTree) (place : Location) (node : FileNode) : FileTree :=
  { tree with nodes := (place, node) :: tree.nodes.filter (·.1 != place) }

def maxName : Nat := 255

def maxPath : Nat := 4096

/-- The place of a name in the directory at a place. -/
def enter (tree : FileTree) (place : Location) (name : Bytes) : Except FileProblem Location :=
  match tree.node? place with
  | none => .error .notFound
  | some (.file _) => .error .notDirectory
  | some .directory =>
    if name == ("." : Bytes) then .ok place
    else if name == (".." : Bytes) then .ok place.tail
    else if name.length > maxName then .error .nameTooLong
    else .ok (name :: place)

/-- The names to follow for a path. One that ends in a slash is that of a directory. -/
def steps (path : Bytes) : List Bytes :=
  let names := (Path.split path).filter (!·.isEmpty)
  if path.getLast? == some Path.slash then names ++ [("." : Bytes)] else names

def follow (tree : FileTree) (place : Location) : List Bytes → Except FileProblem Location
  | [] => .ok place
  | name :: rest => do tree.follow (← tree.enter place name) rest

/-- The place of a path, at which there may be nothing. -/
def locate (tree : FileTree) (path : Bytes) : Except FileProblem Location :=
  if path.contains 0 then .error .invalidPath
  else if path.isEmpty then .error .notFound
  else if path.length ≥ maxPath then .error .nameTooLong
  else tree.follow (if Path.isAbsolute path then [] else tree.here) (steps path)

def stat (tree : FileTree) (path : Bytes) : Except FileError Unit :=
  match tree.locate path with
  | .error problem => .error ⟨.asking, path, problem⟩
  | .ok place =>
    if (tree.node? place).isSome then .ok () else .error ⟨.asking, path, .notFound⟩

/-- A directory can be opened, but not read. -/
def read (tree : FileTree) (path : Bytes) : Except FileError Bytes :=
  match tree.locate path with
  | .error problem => .error ⟨.opening, path, problem⟩
  | .ok place =>
    match tree.node? place with
    | some (.file data) => .ok data
    | some .directory => .error ⟨.reading, path, .isDirectory⟩
    | none => .error ⟨.opening, path, .notFound⟩

/-- Sets what a file holds from what it held. -/
def change (tree : FileTree) (path : Bytes) (f : Bytes → Bytes) : Except FileError FileTree :=
  match tree.locate path with
  | .error problem => .error ⟨.opening, path, problem⟩
  | .ok place =>
    match tree.node? place with
    | some .directory => .error ⟨.opening, path, .isDirectory⟩
    | some (.file data) => .ok (tree.put place (.file (f data)))
    | none => .ok (tree.put place (.file (f [])))

def write (tree : FileTree) (path data : Bytes) : Except FileError FileTree :=
  tree.change path fun _ => data

def append (tree : FileTree) (path data : Bytes) : Except FileError FileTree :=
  tree.change path (· ++ data)

def update (x : FileTree → Except FileError FileTree) : StateM FileTree (Except FileError Unit) :=
  fun tree =>
    match x tree with
    | .ok tree => (.ok (), tree)
    | .error e => (.error e, tree)

/-- A tree as the files around a command. -/
def access : FileAccess (StateM FileTree) where
  stat path tree := (tree.stat path, tree)
  read path tree := (tree.read path, tree)
  write path data := update (·.write path data)
  append path data := update (·.append path data)

end FileTree

end ClassForge
