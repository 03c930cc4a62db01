import ClassForge.Bytes

/-! Why an operation on a path fails. -/

namespace ClassForge

inductive FileProblem where
  | notFound
  | isDirectory
  | notDirectory
  | nameTooLong
  | invalidPath
  /-- Any other problem, in the words of the system. -/
  | other (text : Bytes)
deriving DecidableEq, Repr

def FileProblem.message : FileProblem → Bytes
  | notFound => "no such file or directory"
  | isDirectory => "is a directory"
  | notDirectory => "not a directory"
  | nameTooLong => "file name too long"
  | invalidPath => "invalid argument"
  | other text => text

inductive FileOperation where
  | opening
  | reading
  | writing
  | asking
deriving DecidableEq, Repr

def FileOperation.name : FileOperation → Bytes
  | opening => "open"
  | reading => "read"
  | writing => "write"
  | asking => "stat"

structure FileError where
  operation : FileOperation
  path : Bytes
  problem : FileProblem
deriving DecidableEq, Repr

def FileError.message (e : FileError) : Bytes :=
  e.operation.name ++ " " ++ e.path ++ ": " ++ e.problem.message

/-- What a command needs of the files around it. -/
structure FileAccess (m : Type → Type) where
  /-- Whether there is something at a path. -/
  stat : (path : Bytes) → m (Except FileError Unit)
  read : (path : Bytes) → m (Except FileError Bytes)
  /-- Creates a file, or replaces what it holds. -/
  write : (path data : Bytes) → m (Except FileError Unit)
  /-- Creates a file, or adds to what it holds. -/
  append : (path data : Bytes) → m (Except FileError Unit)

end ClassForge
