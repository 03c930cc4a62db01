import ClassForge.Assembly.Layout
import ClassForge.Assembly.StackHeight

/-! Assembly of a sequence into a method body. The labels are checked, the entries are laid out,
the stack heights are followed, and then the bytes are written. -/

namespace ClassForge

/-- An assembled method body. -/
structure Method where
  bytecode : Bytes
  maxStack : Int
  maxLocals : Int
deriving DecidableEq, Repr

namespace Code

/-- The first label of the sequence that is not placed. -/
def unplaced? (code : Code) : Option Label :=
  (code.places.findIdx? Option.isNone).map (⟨code.serial, ·⟩)

def isForeignJump (code : Code) : Instruction → Bool
  | .jump _ target => !code.owns target
  | _ => false

/-- Every label has to be placed, and every jump has to go to a label of the sequence. -/
def verifyLabels (code : Code) : Except AssemblyError Unit :=
  match code.unplaced? with
  | some label => .error (.unplacedLabel label)
  | none =>
    match code.entries.findIdx? code.isForeignJump with
    | some i => .error (.foreignJump i)
    | none => .ok ()

def loadConstant (index : Nat) : Bytes :=
  if index ≤ 255 then [Opcode.ldc.byte, index.toUInt8] else Opcode.ldcWide.byte :: Bytes.u16 index

/-- A number is written in the form that its recorded size tells. A short form that shares its size
with a constant is taken only if the number is in its range. -/
def pushBytes (value : Int32) (size index : Nat) : Bytes :=
  if size = 1 then [Opcode.iconstZero.byte + value.toUInt32.toUInt8]
  else if size = 2 ∧ Layout.isByteSized value.toInt then
    [Opcode.bipush.byte, value.toUInt32.toUInt8]
  else if size = 3 ∧ Layout.isShortSized value.toInt then
    Opcode.sipush.byte :: Bytes.u16 value.toUInt32.toNat
  else loadConstant index

def accessBytes (op : LocalOp) (slot : Nat) : Bytes :=
  if slot ≤ 3 then [op.shortByte + slot.toUInt8]
  else if slot ≤ 255 then [op.byte, slot.toUInt8]
  else [Opcode.wide.byte, op.byte] ++ Bytes.u16 slot

/-- The position of the entry that a label marks. -/
def position? (code : Code) (placements : Array Placement) (label : Label) : Option Nat := do
  let i ← code.place? label
  let placement ← placements[i]?
  return placement.position

def jumpBytes (code : Code) (placements : Array Placement) (length : Nat) (source : Nat)
    (op : JumpOp) (label : Label) : Except InstructionError Bytes :=
  match code.position? placements label with
  | none => .error (.labelAtEnd label)
  | some target =>
    if target ≥ length then .error (.labelAtEnd label)
    else
      let offset : Int := (target : Int) - source
      if Layout.isShortSized offset then
        .ok (op.opcode.byte :: Bytes.u16 (offset % 65536).toNat)
      else .error (.offsetOutOfRange offset)

/-- The bytes of an instruction at its placement. -/
def instructionBytes (code : Code) (placements : Array Placement) (length : Nat)
    (placement : Placement) : Instruction → Except InstructionError Bytes
  | .mark _ => .ok []
  | .simple op => .ok [op]
  | .pushInt value => .ok (pushBytes value placement.size placement.index)
  | .pushText _ => .ok (loadConstant placement.index)
  | .access op slot => .ok (accessBytes op slot.toNat)
  | .jump op label => jumpBytes code placements length placement.position op label
  | .field op _ | .invoke op _ | .type op _ => .ok (op :: Bytes.u16 placement.index)

/-- Writes the instructions behind the bytes of `out`. -/
def encodeFrom (code : Code) (placements : Array Placement) (length : Nat) (out : Array UInt8) :
    (index : Nat) → List (Instruction × Placement) → Except AssemblyError (Array UInt8)
  | _, [] => .ok out
  | index, (i, placement) :: rest =>
    match instructionBytes code placements length placement i with
    | .error e => .error (.instruction index i e)
    | .ok bytes =>
      let out := out ++ bytes
      if out.size ≠ placement.position + placement.size then .error (.unexpectedSize index i)
      else encodeFrom code placements length out (index + 1) rest

def encode (code : Code) (placements : Array Placement) (length : Nat) :
    Except AssemblyError Bytes :=
  (encodeFrom code placements length #[] 0 (code.entries.toList.zip placements.toList)).map
    Array.toList

/-- The method body of the sequence. Its constants go to the pool, also those of a sequence that
is refused. -/
def assemble (code : Code) (leastLocals : Int) : EStateM AssemblyError ConstantPool Method := do
  if code.isSealed then throw .alreadyAssembled
  liftExcept code.verifyLabels
  let (placements, length) ← code.layout
  let (_, maxStack) ← liftExcept code.stackHeights
  let bytecode ← liftExcept (code.encode placements length)
  return { bytecode, maxStack, maxLocals := code.maxLocals leastLocals }
where
  liftExcept {α : Type} (x : Except AssemblyError α) : EStateM AssemblyError ConstantPool α :=
    match x with
    | .ok a => pure a
    | .error e => throw e

end Code

end ClassForge
