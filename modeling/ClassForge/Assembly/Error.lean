import ClassForge.Assembly.Instruction
import ClassForge.ConstantPool
import ClassForge.Descriptor

/-! Why a sequence cannot be assembled. -/

namespace ClassForge

/-- What is wrong with a single instruction. -/
inductive InstructionError where
  | unsupportedOpcode (op : UInt8)
  | unsupportedField (op : UInt8)
  | slotOutOfRange (slot : Int)
  | labelAtEnd (label : Label)
  | offsetOutOfRange (offset : Int)
  | pool (cause : PoolError)
  | descriptor (cause : Descriptor.Error)
deriving DecidableEq, Repr

def InstructionError.message : InstructionError → Bytes
  | unsupportedOpcode op => "unsupported opcode 0x" ++ Bytes.hex 2 op.toNat
  | unsupportedField op => "unsupported field instruction " ++ Opcode.nameOfByte op
  | slotOutOfRange slot => "slot " ++ Decimal.ofInt slot ++ " out of range"
  | labelAtEnd label => "label " ++ label.name ++ " marks the end of the method"
  | offsetOutOfRange offset => "branch offset " ++ Decimal.ofInt offset ++ " out of range"
  | pool cause => cause.message
  | descriptor cause => cause.message

inductive AssemblyError where
  | alreadyAssembled
  | unplacedLabel (label : Label)
  | foreignJump (index : Nat)
  | emptyBody
  | bodyTooLong (length : Nat)
  | instruction (index : Nat) (instruction : Instruction) (cause : InstructionError)
  | underflow (index : Nat) (instruction : Instruction)
  | inconsistentHeight (index first second : Nat)
  | labelAtEnd (label : Label)
  | fallsOff
  | unexpectedSize (index : Nat) (instruction : Instruction)
deriving DecidableEq, Repr

/-- An instruction with its index, as messages name it. -/
def AssemblyError.located (index : Nat) (instruction : Instruction) : Bytes :=
  "instruction " ++ Decimal.ofNat index ++ " (" ++ instruction.render ++ ")"

def AssemblyError.message : AssemblyError → Bytes
  | alreadyAssembled => "assembler: instruction sequence already assembled"
  | unplacedLabel label => "assembler: label " ++ label.name ++ " was never placed"
  | foreignJump index =>
    "assembler: instruction " ++ Decimal.ofNat index ++ " jumps to a foreign label"
  | emptyBody => "assembler: empty method body"
  | bodyTooLong length =>
    "assembler: method body of " ++ Decimal.ofNat length ++ " bytes exceeds the 65535 byte limit"
  | instruction index i cause => "assembler: " ++ located index i ++ ": " ++ cause.message
  | underflow index i => "assembler: stack underflow at " ++ located index i
  | inconsistentHeight index first second =>
    "assembler: inconsistent stack height at instruction " ++ Decimal.ofNat index ++ ": " ++
      Decimal.ofNat first ++ " and " ++ Decimal.ofNat second
  | labelAtEnd label => "assembler: label " ++ label.name ++ " marks the end of the method"
  | fallsOff => "assembler: execution falls off the end of the method"
  | unexpectedSize index i =>
    "assembler: " ++ located index i ++ " encoded to an unexpected size"

end ClassForge
