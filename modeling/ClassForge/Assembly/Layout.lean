import ClassForge.Assembly.Code
import ClassForge.Assembly.Error

/-! The byte positions of a sequence. Sizes depend on the indexes of the constants, so the
constants are interned here, in the order of the instructions. -/

namespace ClassForge

/-- Where an instruction stands, how many bytes it takes, and the pool index it refers to. -/
structure Placement where
  position : Nat
  size : Nat
  index : Nat
deriving DecidableEq, Repr

namespace Layout

def isByteSized (n : Int) : Bool :=
  -128 ≤ n && n ≤ 127

def isShortSized (n : Int) : Bool :=
  -32768 ≤ n && n ≤ 32767

def constantSize (index : Nat) : Nat :=
  if index ≤ 255 then 2 else 3

/-- A request to the pool on behalf of an instruction. -/
def request (x : ConstantPool.Pooled Nat) : EStateM InstructionError ConstantPool Nat :=
  x.adaptExcept .pool

/-- The size of an instruction and the pool index it refers to, 0 if it refers to none. -/
def measure : Instruction → EStateM InstructionError ConstantPool (Nat × Nat)
  | .mark _ => pure (0, 0)
  | .simple op => if (Opcode.ofByte? op).isSome then pure (1, 0) else throw (.unsupportedOpcode op)
  | .pushInt value =>
    let n := value.toInt
    if -1 ≤ n ∧ n ≤ 5 then pure (1, 0)
    else if isByteSized n then pure (2, 0)
    else if isShortSized n then pure (3, 0)
    else do
      let index ← request (ConstantPool.integer value)
      pure (constantSize index, index)
  | .pushText text => do
    let index ← request (ConstantPool.stringRef text)
    pure (constantSize index, index)
  | .access _ slot =>
    if slot < 0 ∨ slot > 65535 then throw (.slotOutOfRange slot)
    else if slot ≤ 3 then pure (1, 0)
    else if slot ≤ 255 then pure (2, 0)
    else pure (4, 0)
  | .jump _ _ => pure (3, 0)
  | .field _ m => do
    let index ← request (ConstantPool.fieldRef m.owner m.name m.descriptor)
    pure (3, index)
  | .invoke _ m => do
    let index ← request (ConstantPool.methodRef m.owner m.name m.descriptor)
    pure (3, index)
  | .type _ name => do
    let index ← request (ConstantPool.classRef name)
    pure (3, index)

/-- Places the instructions behind those of `done`, from `position` on. -/
def arrange (done : Array Placement) (position : Nat) :
    List Instruction → EStateM AssemblyError ConstantPool (Array Placement × Nat)
  | [] => pure (done, position)
  | i :: rest => do
    let (size, index) ← (measure i).adaptExcept (.instruction done.size i)
    arrange (done.push ⟨position, size, index⟩) (position + size) rest

end Layout

/-- The placements of the entries and the length of the body. -/
def Code.layout (code : Code) : EStateM AssemblyError ConstantPool (Array Placement × Nat) := do
  let (placements, length) ← Layout.arrange #[] 0 code.entries.toList
  if length = 0 then throw .emptyBody
  if length > 65535 then throw (.bodyTooLong length)
  return (placements, length)

/-- The size of the local variable area that an instruction needs, if it needs one. -/
def Instruction.locals? : Instruction → Option Int
  | .access _ slot => some (slot + 1)
  | _ => none

def Code.maxLocals (code : Code) (least : Int) : Int :=
  (code.entries.toList.filterMap Instruction.locals?).foldl max least

end ClassForge
