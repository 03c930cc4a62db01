import ClassForge.Proofs.AssembledBody
import ClassForge.Proofs.AssemblyLimits
import ClassForge.Proofs.PoolRequests

/-! Bytecode read from its first byte to its last, one instruction after another. The bytes that are
written for an instruction are read as that instruction, in whichever of its forms it stands. -/

namespace ClassForge

/-- An instruction as it stands in bytecode. It jumps to a position, and it refers to members and
classes by their pool indexes. -/
inductive MachineInstruction where
  | simple (op : Opcode)
  | pushInt (value : Int32)
  | pushText (text : Bytes)
  | access (op : LocalOp) (slot : Nat)
  | jump (op : JumpOp) (target : Int)
  | refer (op : Opcode) (index : Nat)
deriving DecidableEq

namespace ConstantPool

def constant? (pool : ConstantPool) (index : Nat) : Option Constant := do
  let entry ← entryAt? pool.entries index
  (entry.denote pool.entries index).toOption

/-- What it is to load the constant with the index. -/
def loading? (pool : ConstantPool) (index : Nat) : Option MachineInstruction :=
  match pool.constant? index with
  | some (.integer value) => some (.pushInt value)
  | some (.stringRef text) => some (.pushText text)
  | _ => none

theorem Denotes.constant?_eq {pool : ConstantPool} {index : Nat} {c : Constant}
    (h : pool.Denotes index c) : pool.constant? index = some c := by
  obtain ⟨entry, hentry, hdenote⟩ := h
  simp [constant?, hentry, hdenote, Except.toOption]

end ConstantPool

theorem Bytes.number_toUInt8 {n : Nat} (hn : n ≤ 255) : Bytes.number [n.toUInt8] = n := by
  simp only [Bytes.number, Nat.toUInt8, List.foldl_cons, List.foldl_nil, UInt8.toNat_ofNat']
  omega

namespace Opcode

/-- The number of bytes that follow the opcode. -/
def operandLength : Opcode → Nat
  | bipush | ldc | access _ => 1
  | sipush | ldcWide | branch _ | goto | getstatic | invoke _ | new => 2
  | wide => 3
  | _ => 0

/-- The instruction at a position whose opcode is followed by the operand. -/
def read (pool : ConstantPool) (position : Nat) (operand : Bytes) :
    Opcode → Option MachineInstruction
  | iconst n => some (.pushInt (Int32.ofInt ((n.val : Int) - 1)))
  | bipush => some (.pushInt (Int32.ofInt (Machine.signed8 operand.number)))
  | sipush => some (.pushInt (Int32.ofInt (Machine.signed16 operand.number)))
  | ldc | ldcWide => pool.loading? operand.number
  | access op => some (.access op operand.number)
  | shortAccess op slot => some (.access op slot.val)
  | wide => do
    let op ← operand.head?.bind LocalOp.ofByte?
    return .access op (Bytes.number operand.tail)
  | goto => some (.jump .always (position + Machine.signed16 operand.number))
  | branch relation =>
    some (.jump (.when relation) (position + Machine.signed16 operand.number))
  | getstatic => some (.refer getstatic operand.number)
  | invoke op => some (.refer (invoke op) operand.number)
  | new => some (.refer new operand.number)
  | op => some (.simple op)

/-- The opcodes that are the whole of an instruction. -/
def standsAlone : Opcode → Bool
  | nop | aconstNull | pop | dup | arithmetic _ | returnVoid => true
  | _ => false

/-- The opcodes whose operand is a pool index. -/
def isReference : Opcode → Bool
  | getstatic | invoke _ | new => true
  | _ => false

end Opcode

/-- The instructions of a body, each with its position. There are none if the bytes do not end where
an instruction does. -/
def disassemble (pool : ConstantPool) (position : Nat) :
    Bytes → Option (List (Nat × MachineInstruction))
  | [] => some []
  | b :: rest => do
    let op ← Opcode.ofByte? b
    if rest.length < op.operandLength then none
    else
      let i ← op.read pool position (rest.take op.operandLength)
      let others ← disassemble pool (position + 1 + op.operandLength) (rest.drop op.operandLength)
      return (position, i) :: others
termination_by bytes => bytes.length
decreasing_by
  rw [List.length_drop, List.length_cons]
  omega

/-- The data at a position is the opcode and the operand of the instruction. -/
def Decodes (pool : ConstantPool) (position : Nat) (data : Bytes) (i : MachineInstruction) : Prop :=
  ∃ (op : Opcode) (operand : Bytes), data = op.byte :: operand ∧
    operand.length = op.operandLength ∧ op.read pool position operand = some i

section

variable {pool : ConstantPool} {position index : Nat} {data rest : Bytes} {i : MachineInstruction}

theorem Decodes.disassemble_append (h : Decodes pool position data i) :
    disassemble pool position (data ++ rest) =
      (disassemble pool (position + data.length) rest).map ((position, i) :: ·) := by
  obtain ⟨op, operand, rfl, hlength, hread⟩ := h
  have henough : ¬ (operand ++ rest).length < op.operandLength := by
    rw [List.length_append]
    omega
  have hskip : position + 1 + op.operandLength = position + (op.byte :: operand).length := by
    rw [List.length_cons]
    omega
  rw [List.cons_append, disassemble, op.ofByte?_byte, Option.bind_eq_bind, Option.bind_some,
    if_neg henough, hskip, ← hlength, List.take_left, List.drop_left, hread]
  cases disassemble pool (position + (op.byte :: operand).length) rest <;> rfl

theorem disassemble_cons {b : UInt8} {found : List (Nat × MachineInstruction)}
    (h : disassemble pool position (b :: rest) = some found) :
    ∃ i others, found = (position, i) :: others := by
  rw [disassemble] at h
  obtain ⟨op, -, h⟩ := Option.bind_eq_some_iff.mp h
  split at h
  · cases h
  · obtain ⟨i, -, h⟩ := Option.bind_eq_some_iff.mp h
    obtain ⟨others, -, h⟩ := Option.bind_eq_some_iff.mp h
    cases h
    exact ⟨i, others, rfl⟩

theorem decodes_simple {op : Opcode} (hop : op.standsAlone = true) :
    Decodes pool position [op.byte] (.simple op) := by
  refine ⟨op, [], rfl, ?_, ?_⟩
  · cases op <;> first | rfl | cases hop
  · cases op <;> first | rfl | cases hop

theorem decodes_refer {op : Opcode} (hop : op.isReference = true) (hindex : index < 65536) :
    Decodes pool position (op.byte :: Bytes.u16 index) (.refer op index) := by
  have hread : op.read pool position (Bytes.u16 index) =
      some (.refer op (Bytes.number (Bytes.u16 index))) := by
    cases op <;> first | rfl | cases hop
  rw [Bytes.number_u16 hindex] at hread
  refine ⟨op, Bytes.u16 index, rfl, ?_, hread⟩
  cases op <;> first | rfl | cases hop

theorem decodes_loadConstant (hindex : index < 65536) (h : pool.loading? index = some i) :
    Decodes pool position (Code.loadConstant index) i := by
  by_cases hsmall : index ≤ 255
  · rw [Code.loadConstant, if_pos hsmall]
    exact ⟨.ldc, _, rfl, rfl, by rw [Opcode.read, Bytes.number_toUInt8 hsmall, h]⟩
  · rw [Code.loadConstant, if_neg hsmall]
    exact ⟨.ldcWide, _, rfl, rfl, by rw [Opcode.read, Bytes.number_u16 hindex, h]⟩

theorem decodes_pushInt {value : Int32} {size : Nat} (hform : Code.PushForm value index size data)
    (h : Layout.isShortSized value.toInt = false →
      index < 65536 ∧ pool.constant? index = some (.integer value)) :
    Decodes pool position data (.pushInt value) := by
  have hvalue : Int32.ofInt value.toInt = value := Int32.ofInt_toInt value
  cases hform with
  | opcode n hn => exact ⟨_, [], rfl, rfl, by rw [Opcode.read, hn]⟩
  | byte hbyte =>
    have hnumber : Bytes.number [value.toUInt32.toUInt8] = value.toUInt32.toUInt8.toNat := by
      simp [Bytes.number]
    exact ⟨.bipush, _, rfl, rfl, by
      rw [Opcode.read, hnumber, Machine.signed8_toUInt8 hbyte, hvalue]⟩
  | short hshort =>
    have hlt : value.toUInt32.toNat % 65536 < 65536 := Nat.mod_lt _ (by decide)
    rw [Bytes.u16_mod]
    exact ⟨.sipush, _, rfl, rfl, by
      rw [Opcode.read, Bytes.number_u16 hlt, Machine.signed16_toUInt32 hshort, hvalue]⟩
  | constant hlarge =>
    obtain ⟨hindex, hconstant⟩ := h hlarge
    exact decodes_loadConstant hindex (by rw [ConstantPool.loading?, hconstant])

theorem decodes_access {op : LocalOp} {slot : Nat} (hslot : slot ≤ 65535) :
    Decodes pool position (Code.accessBytes op slot) (.access op slot) := by
  rw [Code.accessBytes]
  by_cases hshort : slot ≤ 3
  · rw [if_pos hshort]
    exact ⟨.shortAccess op ⟨slot, by omega⟩, [], rfl, rfl, rfl⟩
  rw [if_neg hshort]
  by_cases hbyte : slot ≤ 255
  · rw [if_pos hbyte]
    exact ⟨.access op, _, rfl, rfl, by rw [Opcode.read, Bytes.number_toUInt8 hbyte]⟩
  · have hnumber : Bytes.number (Bytes.u16 slot) = slot := Bytes.number_u16 (by omega)
    rw [if_neg hbyte]
    refine ⟨.wide, op.byte :: Bytes.u16 slot, rfl, rfl, ?_⟩
    simp only [Opcode.read, List.head?_cons, List.tail_cons, hnumber]
    cases op <;> rfl

theorem decodes_jump {op : JumpOp} {target : Nat}
    (hshort : Layout.isShortSized ((target : Int) - position) = true) :
    Decodes pool position
      (op.opcode.byte :: Bytes.u16 (((target : Int) - position) % 65536).toNat)
      (.jump op target) := by
  have hlt : (((target : Int) - position) % 65536).toNat < 65536 := by omega
  have htarget : (position : Int) + (target - position) = target := by omega
  refine ⟨op.opcode, _, rfl, ?_, ?_⟩
  · cases op <;> rfl
  · cases op <;> rw [JumpOp.opcode, Opcode.read, Bytes.number_u16 hlt,
      Machine.signed16_mod hshort, htarget]

end

end ClassForge
