import ClassForge.Text.ModifiedUtf8
import ClassForge.Text.Quoted
import Std.Data.HashMap

/-! The constant pool of a class. Entries are interned in the order of their first request, and a
request adds the entries that its own entry refers to before it. -/

namespace ClassForge

/-- A pool entry; references are pool indexes. -/
inductive PoolEntry where
  | utf8 (text : Bytes)
  | integer (value : Int32)
  | classRef (name : Nat)
  | stringRef (text : Nat)
  | fieldRef (owner nameAndType : Nat)
  | methodRef (owner nameAndType : Nat)
  | nameAndType (name descriptor : Nat)
deriving DecidableEq, Repr

inductive PoolError where
  /-- The pool has no room for the entry with this key. -/
  | overflow (key : Bytes)
  /-- The text needs more than 65535 encoded bytes. -/
  | tooLong (text : Bytes)
deriving DecidableEq, Repr

def PoolError.message : PoolError → Bytes
  | overflow key => "classfile: constant pool overflow adding " ++ key
  | tooLong text => "classfile: constant " ++ Quoted.text text ++ " exceeds 65535 encoded bytes"

/-- Entry `i` of the pool is `entries[i - 1]`; there is no entry 0. `index` gives the entry of
each key. -/
structure ConstantPool where
  entries : Array PoolEntry := #[]
  index : Std.HashMap Bytes Nat := ∅

namespace ConstantPool

/-- The count written to a class file, one more than the number of entries. -/
def count (pool : ConstantPool) : Nat :=
  pool.entries.size + 1

abbrev Pooled := EStateM PoolError ConstantPool

/-- The index of the entry with the key, which is added unless it is there. Two requests with one
key share an entry. -/
def intern (key : Bytes) (entry : PoolEntry) : Pooled Nat := fun pool =>
  match pool.index[key]? with
  | some i => .ok i pool
  | none =>
    if pool.count > 65534 then .error (.overflow key) pool
    else .ok pool.count
      { entries := pool.entries.push entry, index := pool.index.insert key pool.count }

def utf8 (text : Bytes) : Pooled Nat := do
  if (ModifiedUtf8.encode text).length > 65535 then throw (.tooLong text)
  intern ("utf8:" ++ text) (.utf8 text)

def integer (value : Int32) : Pooled Nat :=
  intern ("int:" ++ Decimal.ofInt value.toInt) (.integer value)

def stringRef (text : Bytes) : Pooled Nat := do
  let i ← utf8 text
  intern ("string:" ++ text) (.stringRef i)

def classRef (name : Bytes) : Pooled Nat := do
  let i ← utf8 name
  intern ("class:" ++ name) (.classRef i)

def nameAndType (name descriptor : Bytes) : Pooled Nat := do
  let i ← utf8 name
  let j ← utf8 descriptor
  intern ("nat:" ++ name ++ ":" ++ descriptor) (.nameAndType i j)

def fieldRef (owner name descriptor : Bytes) : Pooled Nat := do
  let i ← classRef owner
  let j ← nameAndType name descriptor
  intern ("field:" ++ owner ++ "." ++ name ++ ":" ++ descriptor) (.fieldRef i j)

def methodRef (owner name descriptor : Bytes) : Pooled Nat := do
  let i ← classRef owner
  let j ← nameAndType name descriptor
  intern ("method:" ++ owner ++ "." ++ name ++ ":" ++ descriptor) (.methodRef i j)

end ConstantPool

namespace PoolEntry

def tag : PoolEntry → UInt8
  | utf8 _ => 1
  | integer _ => 3
  | classRef _ => 7
  | stringRef _ => 8
  | fieldRef .. => 9
  | methodRef .. => 10
  | nameAndType .. => 12

def bytes (entry : PoolEntry) : Bytes :=
  entry.tag :: match entry with
    | utf8 text =>
      let encoded := ModifiedUtf8.encode text
      Bytes.u16 encoded.length ++ encoded
    | integer value => Bytes.u32 value.toUInt32.toNat
    | classRef i | stringRef i => Bytes.u16 i
    | fieldRef i j | methodRef i j | nameAndType i j => Bytes.u16 i ++ Bytes.u16 j

end PoolEntry

/-- The pool as it stands in a class file. -/
def ConstantPool.bytes (pool : ConstantPool) : Bytes :=
  Bytes.u16 pool.count ++ pool.entries.toList.flatMap PoolEntry.bytes

end ClassForge
