import ClassForge.ClassFile.Writer

/-! Reading a class file back. Of the constants only the kinds that are written here are known,
interfaces, fields and unknown attributes are skipped, and nothing may follow the class. -/

namespace ClassForge

/-- A pool entry with its references followed. -/
inductive Constant where
  | utf8 (text : Bytes)
  | integer (value : Int32)
  | classRef (name : Bytes)
  | stringRef (text : Bytes)
  | fieldRef (member : Member)
  | methodRef (member : Member)
  | nameAndType (name descriptor : Bytes)
deriving DecidableEq, Repr

/-- The text of a constant that stands for one text. -/
def Constant.text : Constant → Bytes
  | utf8 text | classRef text | stringRef text => text
  | _ => []

def Constant.tag : Constant → Nat
  | utf8 _ => 1
  | integer _ => 3
  | classRef _ => 7
  | stringRef _ => 8
  | fieldRef _ => 9
  | methodRef _ => 10
  | nameAndType .. => 12

inductive ReadError where
  | truncated (position : Nat)
  | badMagic
  | emptyPool
  | malformedText (cause : ModifiedUtf8.Malformed)
  | unsupportedTag (tag index : Nat)
  | notUtf8 (index : Nat)
  | malformedMember (index : Nat)
  | badIndex (index : Nat)
  | thisNotClass
  | superNotClass
  | inMethod (name : Bytes) (cause : ReadError)
  | trailing (length : Nat)
  | noMethod (className name descriptor : Bytes)
deriving DecidableEq, Repr

def ReadError.message : ReadError → Bytes
  | truncated position => "classfile: truncated at byte " ++ Decimal.ofNat position
  | badMagic => "classfile: bad magic number"
  | emptyPool => "classfile: empty constant pool"
  | malformedText cause => cause.message
  | unsupportedTag tag index =>
    "classfile: unsupported constant tag " ++ Decimal.ofNat tag ++ " at index " ++
      Decimal.ofNat index
  | notUtf8 index => "classfile: index " ++ Decimal.ofNat index ++ " is not a Utf8 constant"
  | malformedMember index =>
    "classfile: malformed member reference at index " ++ Decimal.ofNat index
  | badIndex index => "classfile: bad constant pool index " ++ Decimal.ofNat index
  | thisNotClass => "classfile: this_class is not a class constant"
  | superNotClass => "classfile: super_class is not a class constant"
  | inMethod name cause => "classfile: method " ++ name ++ ": " ++ cause.message
  | trailing length => "classfile: " ++ Decimal.ofNat length ++ " trailing bytes"
  | noMethod className name descriptor =>
    "classfile: class " ++ className ++ " has no method " ++ name ++ descriptor

/-- The body of a method that was read. -/
structure CodeAttribute where
  maxStack : Nat
  maxLocals : Nat
  bytecode : Bytes
deriving DecidableEq, Repr

structure ReadMethod where
  access : UInt16
  name : Bytes
  descriptor : Bytes
  code : Option CodeAttribute
deriving DecidableEq, Repr

/-- A class that was read. Constant `i` is `constants[i - 1]`. -/
structure ClassFile where
  minor : Nat
  major : Nat
  access : UInt16
  name : Bytes
  superName : Bytes
  constants : Array Constant
  methods : Array ReadMethod
deriving DecidableEq, Repr

namespace ClassFile

/-- What has not been read yet, the number of bytes that have, and the error of the first read that
found too few. -/
structure Cursor where
  rest : Bytes
  position : Nat := 0
  error : Option ReadError := none
deriving DecidableEq, Repr

/-- A reader goes on after a short read. Where it looks at the error of the cursor, it ends with it. -/
abbrev Reader := StateT Cursor (Except ReadError)

/-- The next `n` bytes. From a read that finds fewer on, nothing more is read. -/
def take (n : Nat) : Reader Bytes := fun c =>
  let taken := c.rest.take n
  if c.error.isNone ∧ taken.length = n then
    .ok (taken, { c with rest := c.rest.drop n, position := c.position + n })
  else .ok ([], { c with error := c.error <|> some (.truncated c.position) })

/-- A number of `n` bytes; one that is cut off is 0. -/
def number (n : Nat) : Reader Nat := do
  return Bytes.number (← take n)

def u8 : Reader Nat := number 1

def u16 : Reader Nat := number 2

def u32 : Reader Nat := number 4

/-- Whether a read has found too few bytes. -/
def failed : Reader Bool := fun c =>
  .ok (c.error.isSome, c)

/-- Ends with the error of a short read, if there was one. -/
def check : Reader Unit := fun c =>
  match c.error with
  | some e => .error e
  | none => .ok ((), c)

/-- Reads up to `count` items behind those of `done`. -/
def many {α : Type} (item : Nat → Reader α) (done : Array α) : (count : Nat) → Reader (Array α)
  | 0 => pure done
  | count + 1 => do
    if ← failed then return done
    let a ← item done.size
    many item (done.push a) count

def readText : Reader Bytes := do
  let data ← take (← u16)
  match ModifiedUtf8.decode data with
  | .ok text => pure text
  | .error e => throw (.malformedText e)

/-- The entry with the given number of entries before it. There is none if its tag is cut off. -/
def readEntry (before : Nat) : Reader (Option PoolEntry) := do
  match ← u8 with
  | 1 => return some (.utf8 (← readText))
  | 3 => return some (.integer (UInt32.ofNat (← u32)).toInt32)
  | 7 => return some (.classRef (← u16))
  | 8 => return some (.stringRef (← u16))
  | 9 => return some (.fieldRef (← u16) (← u16))
  | 10 => return some (.methodRef (← u16) (← u16))
  | 12 => return some (.nameAndType (← u16) (← u16))
  | tag =>
    if ← failed then return none
    throw (.unsupportedTag tag (before + 1))

def readPool : Reader (Array PoolEntry) := do
  let count ← u16
  if count = 0 then throw .emptyPool
  let entries ← many readEntry #[] (count - 1)
  check
  return entries.filterMap id

end ClassFile

/-! What the entries of a pool denote. -/

def entryAt? (entries : Array PoolEntry) (index : Nat) : Option PoolEntry :=
  if index = 0 then none else entries[index - 1]?

def textAt (entries : Array PoolEntry) (index : Nat) : Except ReadError Bytes :=
  match entryAt? entries index with
  | some (.utf8 text) => .ok text
  | _ => .error (.notUtf8 index)

/-- The member that the entry `index` refers to by a class and a name with a type. -/
def memberAt (entries : Array PoolEntry) (index owner pair : Nat) : Except ReadError Member :=
  match entryAt? entries owner, entryAt? entries pair with
  | some (.classRef owner), some (.nameAndType name descriptor) => do
    return ⟨← textAt entries owner, ← textAt entries name, ← textAt entries descriptor⟩
  | _, _ => .error (.malformedMember index)

/-- The constant that an entry stands for at `index` in a pool. -/
def PoolEntry.denote (entries : Array PoolEntry) (index : Nat) :
    PoolEntry → Except ReadError Constant
  | utf8 text => .ok (.utf8 text)
  | integer value => .ok (.integer value)
  | classRef name => do return .classRef (← textAt entries name)
  | stringRef text => do return .stringRef (← textAt entries text)
  | nameAndType name descriptor => do
    return .nameAndType (← textAt entries name) (← textAt entries descriptor)
  | fieldRef owner pair => do return .fieldRef (← memberAt entries index owner pair)
  | methodRef owner pair => do return .methodRef (← memberAt entries index owner pair)

/-- Adds to `done` the constants of the remaining entries of a pool. -/
def resolveFrom (entries : Array PoolEntry) (done : Array Constant) :
    List PoolEntry → Except ReadError (Array Constant)
  | [] => .ok done
  | entry :: rest =>
    match entry.denote entries (done.size + 1) with
    | .ok constant => resolveFrom entries (done.push constant) rest
    | .error e => .error e

def resolve (entries : Array PoolEntry) : Except ReadError (Array Constant) :=
  resolveFrom entries #[] entries.toList

def constantAt (constants : Array Constant) (index : Nat) : Except ReadError Constant :=
  if index = 0 then .error (.badIndex index)
  else
    match constants[index - 1]? with
    | some constant => .ok constant
    | none => .error (.badIndex index)

namespace ClassFile

def skipAttribute : Reader Unit := do
  let _ ← u16
  let _ ← take (← u32)

/-- Reads up to `count` items and keeps none. -/
def skipMany (item : Reader Unit) : (count : Nat) → Reader Unit
  | 0 => pure ()
  | count + 1 => do
    if ← failed then return
    item
    skipMany item count

def ignoreAttributes : Reader Unit := do
  skipMany skipAttribute (← u16)

def skipField : Reader Unit := do
  let _ ← take 6
  ignoreAttributes

def readCode : Reader CodeAttribute := do
  let maxStack ← u16
  let maxLocals ← u16
  let bytecode ← take (← u32)
  let _ ← take (8 * (← u16))
  ignoreAttributes
  check
  return { maxStack, maxLocals, bytecode }

/-- Reads the attributes of a method. Of several code attributes the last one counts. -/
def readMethodAttributes (constants : Array Constant) (method : Bytes) :
    (count : Nat) → (code : Option CodeAttribute) → Reader (Option CodeAttribute)
  | 0, code => pure code
  | count + 1, code => do
    if ← failed then return code
    let name ← constantAt constants (← u16)
    let body ← take (← u32)
    if name.text ≠ codeAttributeName ∨ (← failed) then
      readMethodAttributes constants method count code
    else
      match readCode { rest := body } with
      | .ok (code, _) => readMethodAttributes constants method count (some code)
      | .error e => throw (.inMethod method e)

def readMethod (constants : Array Constant) : Reader ReadMethod := do
  let access ← u16
  let nameIndex ← u16
  let descriptorIndex ← u16
  check
  let name ← constantAt constants nameIndex
  let descriptor ← constantAt constants descriptorIndex
  let code ← readMethodAttributes constants name.text (← u16) none
  check
  return { access := access.toUInt16, name := name.text, descriptor := descriptor.text, code }

/-- The name of the class at an index. -/
def classNameAt (constants : Array Constant) (index : Nat) (e : ReadError) :
    Except ReadError Bytes :=
  match constantAt constants index with
  | .ok (.classRef name) => .ok name
  | _ => .error e

def readMagic : Reader Unit := do
  if (← u32) ≠ magic then
    check
    throw .badMagic

def readClass : Reader ClassFile := do
  readMagic
  let minor ← u16
  let major ← u16
  let entries ← readPool
  let constants ← resolve entries
  let access ← u16
  let thisIndex ← u16
  let superIndex ← u16
  check
  let name ← classNameAt constants thisIndex .thisNotClass
  let superName ←
    if superIndex = 0 then pure [] else classNameAt constants superIndex .superNotClass
  let _ ← take (2 * (← u16))
  skipMany skipField (← u16)
  let methods ← many (fun _ => readMethod constants) #[] (← u16)
  ignoreAttributes
  return { minor, major, access := access.toUInt16, name, superName, constants, methods }

/-- Reads a class file whole. A short read counts before what is left over. -/
def parse (data : Bytes) : Except ReadError ClassFile :=
  match readClass { rest := data } with
  | .ok (c, cursor) =>
    match cursor.error with
    | some e => .error e
    | none => if cursor.rest.isEmpty then .ok c else .error (.trailing cursor.rest.length)
  | .error e => .error e

def constant (c : ClassFile) (index : Nat) : Except ReadError Constant :=
  constantAt c.constants index

def lookupMethod (c : ClassFile) (name descriptor : Bytes) : Except ReadError ReadMethod :=
  match c.methods.find? fun m => m.name == name && m.descriptor == descriptor with
  | some m => .ok m
  | none => .error (.noMethod c.name name descriptor)

end ClassFile

end ClassForge
