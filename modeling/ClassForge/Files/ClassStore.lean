import ClassForge.Files.Error
import ClassForge.Files.Path

/-! Class files in a directory. -/

namespace ClassForge

/-- Where class files go. -/
structure ClassStore where
  dir : Bytes
  /-- The usual extension is taken for the empty one. -/
  extension : Bytes
deriving DecidableEq, Repr

structure StoreError where
  path : Bytes
  cause : FileError
deriving DecidableEq, Repr

def StoreError.message (e : StoreError) : Bytes :=
  "classfile: write " ++ e.path ++ ": " ++ e.cause.message

namespace ClassStore

/-- The file of the class with a given name. -/
def path (store : ClassStore) (name : Bytes) : Bytes :=
  let extension := if store.extension.isEmpty then ("class" : Bytes) else store.extension
  Path.join store.dir (name ++ "." ++ extension)

def write {m : Type → Type} [Monad m] (store : ClassStore) (files : FileAccess m)
    (name data : Bytes) : m (Except StoreError Bytes) := do
  let path := store.path name
  match ← files.write path data with
  | .ok _ => return .ok path
  | .error e => return .error ⟨path, e⟩

end ClassStore

end ClassForge
