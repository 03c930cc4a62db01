import ClassForge.Assembly.Method

/-! Writing a class: its header, its constant pool and its methods. The pool is shared with the
assembly of the methods, so that operands and names index one table. -/

namespace ClassForge

namespace ClassFile

def magic : Nat := 0xcafebabe

/-- Classes of this version need no stack map frames. -/
def majorVersion : Nat := 49

def minorVersion : Nat := 0

def accPublic : UInt16 := 0x0001

def accStatic : UInt16 := 0x0008

def accSuper : UInt16 := 0x0020

def objectClass : Bytes := "java/lang/Object"

def constructorName : Bytes := "<init>"

def noArgsDescriptor : Bytes := "()V"

def mainName : Bytes := "main"

def mainDescriptor : Bytes := "([Ljava/lang/String;)V"

def codeAttributeName : Bytes := "Code"

end ClassFile

/-- A method of a class that is being written. -/
structure WrittenMethod where
  access : UInt16
  name : Bytes
  descriptor : Bytes
  body : Method
deriving DecidableEq, Repr

inductive ClassError where
  | finished
  | noCode (name descriptor : Bytes)
  | duplicate (name descriptor : Bytes)
  | frameLimits (name : Bytes)
  | pool (cause : PoolError)
  | assembly (cause : AssemblyError)
deriving DecidableEq, Repr

def ClassError.message : ClassError → Bytes
  | finished => "classfile: class already serialized"
  | noCode name descriptor => "classfile: method " ++ name ++ descriptor ++ " has no code"
  | duplicate name descriptor => "classfile: duplicate method " ++ name ++ descriptor
  | frameLimits name => "classfile: method " ++ name ++ " exceeds frame limits"
  | pool cause => cause.message
  | assembly cause => cause.message

structure ClassWriter where
  access : UInt16
  name : Bytes
  superName : Bytes
  thisIndex : Nat
  superIndex : Nat
  pool : ConstantPool
  methods : Array WrittenMethod := #[]
  isFinished : Bool := false

namespace ClassWriter

open ClassFile

abbrev Writing := EStateM ClassError ClassWriter

def onPool {ε α : Type} (wrap : ε → ClassError) (x : EStateM ε ConstantPool α) : Writing α := fun w =>
  match x w.pool with
  | .ok a pool => .ok a { w with pool }
  | .error e pool => .error (wrap e) { w with pool }

/-- A public class. The names of the class and of its superclass lead the pool. -/
def new (name superName : Bytes) : Except PoolError ClassWriter :=
  let indexes : ConstantPool.Pooled (Nat × Nat) := do
    let thisIndex ← ConstantPool.classRef name
    let superIndex ← ConstantPool.classRef superName
    return (thisIndex, superIndex)
  match indexes {} with
  | .ok (thisIndex, superIndex) pool =>
    .ok { access := accPublic ||| accSuper, name, superName, thisIndex, superIndex, pool }
  | .error e _ => .error e

/-- Adds a method. Methods are written in the order in which they were added. -/
def addMethod (access : UInt16) (name descriptor : Bytes) (body : Option Method) : Writing Unit := do
  let w ← get
  if w.isFinished then throw .finished
  let some body := body | throw (.noCode name descriptor)
  if w.methods.any fun m => m.name == name && m.descriptor == descriptor then
    throw (.duplicate name descriptor)
  set { w with methods := w.methods.push { access, name, descriptor, body } }

def constructorCode (superName : Bytes) : Code :=
  { entries := #[
      .access .aload 0,
      .invoke (Opcode.invoke .special).byte ⟨superName, constructorName, noArgsDescriptor⟩,
      .simple Opcode.returnVoid.byte] }

/-- The body of the constructor without arguments, which calls that of the superclass. -/
def constructorBody : Writing Method := do
  onPool .assembly ((constructorCode (← get).superName).assemble 1)

/-- A method with its code attribute. Sizes are written modulo 2^16. -/
def methodBytes (m : WrittenMethod) (nameIndex descriptorIndex codeIndex : Nat) : Bytes :=
  Bytes.u16 m.access.toNat ++ Bytes.u16 nameIndex ++ Bytes.u16 descriptorIndex ++ Bytes.u16 1 ++
    Bytes.u16 codeIndex ++ Bytes.u32 (m.body.bytecode.length + 12) ++
    Bytes.u16 (m.body.maxStack % 65536).toNat ++ Bytes.u16 (m.body.maxLocals % 65536).toNat ++
    Bytes.u32 m.body.bytecode.length ++ m.body.bytecode ++ Bytes.u16 0 ++ Bytes.u16 0

/-- The pool indexes of the names and descriptors of the methods. -/
def methodIndexes : List WrittenMethod → ConstantPool.Pooled (List (Nat × Nat))
  | [] => pure []
  | m :: rest => do
    let name ← ConstantPool.utf8 m.name
    let descriptor ← ConstantPool.utf8 m.descriptor
    let others ← methodIndexes rest
    return (name, descriptor) :: others

def exceedsFrame (m : WrittenMethod) : Bool :=
  m.body.maxStack > 65535 || m.body.maxLocals > 65535

/-- The class file over the pool indexes of its methods and of their attribute. -/
def fileBytes (w : ClassWriter) (codeIndex : Nat) (indexes : List (Nat × Nat)) : Bytes :=
  let methods := w.methods.toList
  let header := Bytes.u32 magic ++ Bytes.u16 minorVersion ++ Bytes.u16 majorVersion
  let names := Bytes.u16 w.access.toNat ++ Bytes.u16 w.thisIndex ++ Bytes.u16 w.superIndex
  let noInterfacesNoFields := Bytes.u16 0 ++ Bytes.u16 0
  let bodies := (methods.zip indexes).flatMap fun (m, name, descriptor) =>
    methodBytes m name descriptor codeIndex
  header ++ (w.pool.bytes ++ (names ++ (noInterfacesNoFields ++
    (Bytes.u16 methods.length ++ (bodies ++ Bytes.u16 0)))))

/-- The class file. The names of the methods and of their attribute go to the pool before it is
written. A class is written once. -/
def bytes : Writing Bytes := do
  if (← get).isFinished then throw .finished
  let codeIndex ← onPool .pool (ConstantPool.utf8 codeAttributeName)
  let indexes ← onPool .pool (methodIndexes (← get).methods.toList)
  match (← get).methods.toList.find? exceedsFrame with
  | some m => throw (.frameLimits m.name)
  | none =>
    modify fun w => { w with isFinished := true }
    return (← get).fileBytes codeIndex indexes

end ClassWriter

end ClassForge
