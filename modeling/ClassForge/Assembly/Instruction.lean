import ClassForge.Opcode
import ClassForge.Text.Decimal
import ClassForge.Text.Quoted

/-! Instructions before assembly. Their operands are symbolic: constants, slots, labels and
members by name. An instruction that takes any opcode holds its byte, known or not. -/

namespace ClassForge

/-- A field or method of another class. -/
structure Member where
  owner : Bytes
  name : Bytes
  descriptor : Bytes
deriving DecidableEq, Repr

def Member.render (m : Member) : Bytes :=
  m.owner ++ "." ++ m.name ++ ":" ++ m.descriptor

/-- Label `number` of the instruction sequence `owner`. -/
structure Label where
  owner : Nat
  number : Nat
deriving DecidableEq, Repr

def Label.name (label : Label) : Bytes :=
  "L" ++ Decimal.ofNat label.number

inductive Instruction where
  | simple (op : UInt8)
  | pushInt (value : Int32)
  | pushText (text : Bytes)
  | access (op : LocalOp) (slot : Int)
  | jump (op : JumpOp) (target : Label)
  | field (op : UInt8) (member : Member)
  | invoke (op : UInt8) (member : Member)
  | type (op : UInt8) (name : Bytes)
  /-- The place that a label marks; it takes no bytes. -/
  | mark (label : Label)
deriving DecidableEq, Repr

namespace Instruction

def isMark : Instruction → Bool
  | mark _ => true
  | _ => false

/-- The line of the instruction in a listing. -/
def render : Instruction → Bytes
  | simple op => "\t" ++ Opcode.nameOfByte op
  | pushInt value => "\tpush " ++ Decimal.ofInt value.toInt
  | pushText text => "\tldc " ++ Quoted.text text
  | access op slot => "\t" ++ op.name ++ " " ++ Decimal.ofInt slot
  | jump op target => "\t" ++ op.opcode.name ++ " " ++ target.name
  | field op member | invoke op member => "\t" ++ Opcode.nameOfByte op ++ " " ++ member.render
  | type op name => "\t" ++ Opcode.nameOfByte op ++ " " ++ name
  | mark label => label.name ++ ":"

end Instruction

end ClassForge
