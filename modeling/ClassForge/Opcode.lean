import ClassForge.Bytes

/-! The supported instructions of the virtual machine, with their bytes, names and stack effects.
A byte that stands for none of them is an unknown opcode. -/

namespace ClassForge

/-- Loads and stores of local variables. -/
inductive LocalOp where
  | iload | aload | istore | astore
deriving DecidableEq, Repr

/-- The relations of the comparison branches. -/
inductive Relation where
  | eq | ne | lt | ge | gt | le
deriving DecidableEq, Repr

inductive ArithmeticOp where
  | add | sub | mul | div
deriving DecidableEq, Repr

inductive CallOp where
  | virtual | special | static
deriving DecidableEq, Repr

inductive Opcode where
  | nop
  | aconstNull
  /-- Pushes `n - 1`. -/
  | iconst (n : Fin 7)
  | bipush
  | sipush
  | ldc
  | ldcWide
  | access (op : LocalOp)
  /-- An access to one of the first four slots. -/
  | shortAccess (op : LocalOp) (slot : Fin 4)
  | pop
  | dup
  | arithmetic (op : ArithmeticOp)
  | branch (relation : Relation)
  | goto
  | returnVoid
  | getstatic
  | invoke (op : CallOp)
  | new
  | wide
deriving DecidableEq, Repr

def LocalOp.byte : LocalOp → UInt8
  | .iload => 0x15
  | .aload => 0x19
  | .istore => 0x36
  | .astore => 0x3a

/-- The byte of the access to slot 0; the three slots after it follow. -/
def LocalOp.shortByte : LocalOp → UInt8
  | .iload => 0x1a
  | .aload => 0x2a
  | .istore => 0x3b
  | .astore => 0x4b

def LocalOp.name : LocalOp → Bytes
  | .iload => "iload"
  | .aload => "aload"
  | .istore => "istore"
  | .astore => "astore"

def LocalOp.isLoad : LocalOp → Bool
  | .iload | .aload => true
  | .istore | .astore => false

def Relation.byte : Relation → UInt8
  | .eq => 0x9f
  | .ne => 0xa0
  | .lt => 0xa1
  | .ge => 0xa2
  | .gt => 0xa3
  | .le => 0xa4

def Relation.name : Relation → Bytes
  | .eq => "if_icmpeq"
  | .ne => "if_icmpne"
  | .lt => "if_icmplt"
  | .ge => "if_icmpge"
  | .gt => "if_icmpgt"
  | .le => "if_icmple"

def Relation.holds : Relation → Int32 → Int32 → Bool
  | .eq, a, b => a == b
  | .ne, a, b => a != b
  | .lt, a, b => a < b
  | .ge, a, b => b ≤ a
  | .gt, a, b => b < a
  | .le, a, b => a ≤ b

namespace Opcode

def byte : Opcode → UInt8
  | nop => 0x00
  | aconstNull => 0x01
  | iconst n => 0x02 + n.val.toUInt8
  | bipush => 0x10
  | sipush => 0x11
  | ldc => 0x12
  | ldcWide => 0x13
  | access op => op.byte
  | shortAccess op slot => op.shortByte + slot.val.toUInt8
  | pop => 0x57
  | dup => 0x59
  | arithmetic .add => 0x60
  | arithmetic .sub => 0x64
  | arithmetic .mul => 0x68
  | arithmetic .div => 0x6c
  | branch relation => relation.byte
  | goto => 0xa7
  | returnVoid => 0xb1
  | getstatic => 0xb2
  | invoke .virtual => 0xb6
  | invoke .special => 0xb7
  | invoke .static => 0xb8
  | new => 0xbb
  | wide => 0xc4

/-- Pushes zero. The opcodes of the other small numbers stand around this one in their order. -/
def iconstZero : Opcode :=
  iconst 1

def all : List Opcode :=
  [nop, aconstNull] ++ (List.finRange 7).map iconst ++ [bipush, sipush, ldc, ldcWide] ++
    [LocalOp.iload, .aload, .istore, .astore].flatMap
      (fun op => access op :: (List.finRange 4).map (shortAccess op)) ++
    [pop, dup] ++ [ArithmeticOp.add, .sub, .mul, .div].map arithmetic ++
    [Relation.eq, .ne, .lt, .ge, .gt, .le].map branch ++ [goto, returnVoid, getstatic] ++
    [CallOp.virtual, .special, .static].map invoke ++ [new, wide]

def ofByte? (b : UInt8) : Option Opcode :=
  match b.toNat with
  | 0x00 => some nop
  | 0x01 => some aconstNull
  | 0x02 => some (iconst 0)
  | 0x03 => some (iconst 1)
  | 0x04 => some (iconst 2)
  | 0x05 => some (iconst 3)
  | 0x06 => some (iconst 4)
  | 0x07 => some (iconst 5)
  | 0x08 => some (iconst 6)
  | 0x10 => some bipush
  | 0x11 => some sipush
  | 0x12 => some ldc
  | 0x13 => some ldcWide
  | 0x15 => some (access .iload)
  | 0x19 => some (access .aload)
  | 0x1a => some (shortAccess .iload 0)
  | 0x1b => some (shortAccess .iload 1)
  | 0x1c => some (shortAccess .iload 2)
  | 0x1d => some (shortAccess .iload 3)
  | 0x2a => some (shortAccess .aload 0)
  | 0x2b => some (shortAccess .aload 1)
  | 0x2c => some (shortAccess .aload 2)
  | 0x2d => some (shortAccess .aload 3)
  | 0x36 => some (access .istore)
  | 0x3a => some (access .astore)
  | 0x3b => some (shortAccess .istore 0)
  | 0x3c => some (shortAccess .istore 1)
  | 0x3d => some (shortAccess .istore 2)
  | 0x3e => some (shortAccess .istore 3)
  | 0x4b => some (shortAccess .astore 0)
  | 0x4c => some (shortAccess .astore 1)
  | 0x4d => some (shortAccess .astore 2)
  | 0x4e => some (shortAccess .astore 3)
  | 0x57 => some pop
  | 0x59 => some dup
  | 0x60 => some (arithmetic .add)
  | 0x64 => some (arithmetic .sub)
  | 0x68 => some (arithmetic .mul)
  | 0x6c => some (arithmetic .div)
  | 0x9f => some (branch .eq)
  | 0xa0 => some (branch .ne)
  | 0xa1 => some (branch .lt)
  | 0xa2 => some (branch .ge)
  | 0xa3 => some (branch .gt)
  | 0xa4 => some (branch .le)
  | 0xa7 => some goto
  | 0xb1 => some returnVoid
  | 0xb2 => some getstatic
  | 0xb6 => some (invoke .virtual)
  | 0xb7 => some (invoke .special)
  | 0xb8 => some (invoke .static)
  | 0xbb => some new
  | 0xc4 => some wide
  | _ => none

theorem ofByte?_byte (op : Opcode) : ofByte? op.byte = some op := by
  cases op with
  | iconst n => revert n; decide
  | access op => cases op <;> rfl
  | shortAccess op slot => cases op <;> revert slot <;> decide
  | arithmetic op => cases op <;> rfl
  | branch relation => cases relation <;> rfl
  | invoke op => cases op <;> rfl
  | _ => rfl

def name : Opcode → Bytes
  | nop => "nop"
  | aconstNull => "aconst_null"
  | iconst n => if n = 0 then "iconst_m1" else "iconst_" ++ [0x2f + n.val.toUInt8]
  | bipush => "bipush"
  | sipush => "sipush"
  | ldc => "ldc"
  | ldcWide => "ldc_w"
  | access op => op.name
  | shortAccess op slot => op.name ++ "_" ++ [0x30 + slot.val.toUInt8]
  | pop => "pop"
  | dup => "dup"
  | arithmetic .add => "iadd"
  | arithmetic .sub => "isub"
  | arithmetic .mul => "imul"
  | arithmetic .div => "idiv"
  | branch relation => relation.name
  | goto => "goto"
  | returnVoid => "return"
  | getstatic => "getstatic"
  | invoke .virtual => "invokevirtual"
  | invoke .special => "invokespecial"
  | invoke .static => "invokestatic"
  | new => "new"
  | wide => "wide"

/-- The stack words an instruction takes, where its operands do not decide that. -/
def pops : Opcode → Nat
  | access op | shortAccess op _ => if op.isLoad then 0 else 1
  | pop | dup => 1
  | arithmetic _ | branch _ => 2
  | _ => 0

/-- The stack words an instruction leaves, where its operands do not decide that. -/
def pushes : Opcode → Nat
  | aconstNull | iconst _ | bipush | sipush | ldc | ldcWide | arithmetic _ | new => 1
  | access op | shortAccess op _ => if op.isLoad then 1 else 0
  | dup => 2
  | _ => 0

def nameOfByte (b : UInt8) : Bytes :=
  match ofByte? b with
  | some op => op.name
  | none => "op_0x" ++ Bytes.hex 2 b.toNat

def popsOfByte (b : UInt8) : Nat :=
  ((ofByte? b).map pops).getD 0

def pushesOfByte (b : UInt8) : Nat :=
  ((ofByte? b).map pushes).getD 0

end Opcode

def LocalOp.ofByte? (b : UInt8) : Option LocalOp :=
  match Opcode.ofByte? b with
  | some (.access op) => some op
  | _ => none

/-- An unconditional branch, or one that is taken when a relation holds. -/
inductive JumpOp where
  | always
  | when (relation : Relation)
deriving DecidableEq, Repr

namespace JumpOp

def opcode : JumpOp → Opcode
  | always => .goto
  | when relation => .branch relation

def ofByte? (b : UInt8) : Option JumpOp :=
  match Opcode.ofByte? b with
  | some .goto => some always
  | some (.branch relation) => some (when relation)
  | _ => none

end JumpOp

end ClassForge
