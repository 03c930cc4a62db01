import ClassForge.Proofs.BodyLayout
import ClassForge.Proofs.PoolRoundTrip
import ClassForge.Proofs.StackAnalysis
import ClassForge.Machine.Run

/-! What a machine does with the bytes of an instruction. The bytes that stand for a number, a slot
or a label are taken apart as they were put together. -/

namespace ClassForge

namespace Machine

variable {m : Machine}

/-- The data stands at the counter. -/
def Has (m : Machine) (data : Bytes) : Prop :=
  ∀ j < data.length, m.code[m.pc + j]? = data[j]?

theorem Has.step_of_byte {a : UInt8} {op : Opcode} {rest : Bytes} (h : m.Has (a :: rest))
    (hop : Opcode.ofByte? a = some op) : step m = execute m.pc op m := by
  have h0 : m.code[m.pc]? = some a := by simpa using h 0 (by simp)
  simp only [Machine.step, h0, hop]

theorem Has.step {op : Opcode} {rest : Bytes} (h : m.Has (op.byte :: rest)) :
    Machine.step m = execute m.pc op m :=
  h.step_of_byte op.ofByte?_byte

theorem Has.operand8 {a b : UInt8} (h : m.Has [b, a]) :
    operand8 m = .ok a.toNat { m with pc := m.pc + 2 } := by
  have h1 : m.code[m.pc + 1]? = some a := by simpa using h 1 (by simp)
  simp only [Machine.operand8, h1]

theorem Has.operand16 {b : UInt8} {n : Nat} (h : m.Has (b :: Bytes.u16 n)) (hn : n < 65536) :
    operand16 m = .ok n { m with pc := m.pc + 3 } := by
  have h1 : m.code[m.pc + 1]? = some (n / 256).toUInt8 := h 1 (by simp [Bytes.u16])
  have h2 : m.code[m.pc + 2]? = some n.toUInt8 := h 2 (by simp [Bytes.u16])
  simp only [Machine.operand16, h1, h2, Bytes.toNat_u16 hn]

theorem Has.operand24 {a b : UInt8} {n : Nat} (h : m.Has (b :: a :: Bytes.u16 n)) (hn : n < 65536) :
    operand24 m = .ok (a, n) { m with pc := m.pc + 4 } := by
  have h1 : m.code[m.pc + 1]? = some a := by simpa using h 1 (by simp)
  have h2 : m.code[m.pc + 2]? = some (n / 256).toUInt8 := h 2 (by simp [Bytes.u16])
  have h3 : m.code[m.pc + 3]? = some n.toUInt8 := h 3 (by simp [Bytes.u16])
  simp only [Machine.operand24, h1, h2, h3, Bytes.toNat_u16 hn]

theorem advance_eq (n : Nat) (m : Machine) : advance n m = .ok () { m with pc := m.pc + n } :=
  rfl

theorem signed16_mod {offset : Int} (h : Layout.isShortSized offset = true) :
    signed16 (offset % 65536).toNat = offset := by
  simp only [Layout.isShortSized, Bool.and_eq_true, decide_eq_true_eq] at h
  simp only [signed16]
  split <;> omega

theorem signed8_toUInt8 {n : Int32} (h : Layout.isByteSized n.toInt = true) :
    signed8 n.toUInt32.toUInt8.toNat = n.toInt := by
  have hn := Layout.toInt_eq n
  have hlt := n.toUInt32.toNat_lt
  simp only [Layout.isByteSized, Bool.and_eq_true, decide_eq_true_eq] at h
  simp only [signed8, UInt32.toNat_toUInt8]
  split at hn <;> split <;> omega

theorem signed16_toUInt32 {n : Int32} (h : Layout.isShortSized n.toInt = true) :
    signed16 (n.toUInt32.toNat % 65536) = n.toInt := by
  have hn := Layout.toInt_eq n
  have hlt := n.toUInt32.toNat_lt
  simp only [Layout.isShortSized, Bool.and_eq_true, decide_eq_true_eq] at h
  simp only [signed16]
  split at hn <;> split <;> omega

theorem loadConstant_integer {index : Nat} {n : Int32}
    (h : constantAt m.constants index = .ok (.integer n)) :
    loadConstant index m = push (.int n) m := by
  have hc : constant index m = .ok (.integer n) m := by simp only [constant, h]
  exact bind_eq_of_ok hc _

theorem loadConstant_stringRef {index : Nat} {s : Bytes}
    (h : constantAt m.constants index = .ok (.stringRef s)) :
    loadConstant index m = push (.text s) m := by
  have hc : constant index m = .ok (.stringRef s) m := by simp only [constant, h]
  exact bind_eq_of_ok hc _

theorem Has.step_loadConstant {index : Nat} (h : m.Has (Code.loadConstant index))
    (hindex : index < 65536) :
    Machine.step m = (do loadConstant index; return false)
      { m with pc := m.pc + Layout.constantSize index } := by
  simp only [Code.loadConstant] at h
  split at h
  · rename_i hsmall
    have hbyte : index.toUInt8.toNat = index := by
      simp only [Nat.toUInt8, UInt8.toNat_ofNat']
      omega
    rw [h.step]
    refine (bind_eq_of_ok h.operand8 _).trans ?_
    rw [hbyte]
    simp only [Layout.constantSize, hsmall, if_true]
  · rename_i hlarge
    rw [h.step]
    refine (bind_eq_of_ok (h.operand16 hindex) _).trans ?_
    simp only [Layout.constantSize, hlarge, if_false]

theorem Has.step_pushText {index : Nat} {s : Bytes} (h : m.Has (Code.loadConstant index))
    (hindex : index < 65536) (hc : constantAt m.constants index = .ok (.stringRef s)) :
    Machine.step m = (do push (.text s); return false)
      { m with pc := m.pc + Layout.constantSize index } := by
  refine (h.step_loadConstant hindex).trans (bind_congr_at (loadConstant_stringRef ?_) _)
  exact hc

/-- Whichever of its forms the number was written in, it is what is pushed. -/
theorem Has.step_pushInt {v : Int32} {index size : Nat} {data : Bytes} (h : m.Has data)
    (hform : Code.PushForm v index size data)
    (hc : Layout.isShortSized v.toInt = false →
      index < 65536 ∧ constantAt m.constants index = .ok (.integer v)) :
    Machine.step m = (do push (.int v); return false) { m with pc := m.pc + size } := by
  have hv : Int32.ofInt v.toInt = v := Int32.ofInt_toInt v
  cases hform with
  | opcode n hn =>
    rw [h.step]
    refine (bind_eq_of_ok (advance_eq 1 m) _).trans ?_
    rw [hn]
  | byte hbyte =>
    rw [h.step]
    refine (bind_eq_of_ok h.operand8 _).trans ?_
    rw [signed8_toUInt8 hbyte, hv]
  | short hshort =>
    rw [Bytes.u16_mod] at h
    rw [h.step]
    refine (bind_eq_of_ok (h.operand16 (Nat.mod_lt _ (by decide))) _).trans ?_
    rw [signed16_toUInt32 hshort, hv]
  | constant hlarge =>
    obtain ⟨hindex, hc⟩ := hc hlarge
    refine (h.step_loadConstant hindex).trans (bind_congr_at (loadConstant_integer ?_) _)
    exact hc

/-- Whichever of its forms the slot was written in, it is the one that is accessed. -/
theorem Has.step_access {op : LocalOp} {slot : Int} (h : m.Has (Code.accessBytes op slot.toNat))
    (hslot : 0 ≤ slot ∧ slot ≤ 65535) (index : Nat) :
    Machine.step m = (do access op.byte slot.toNat; return false)
      { m with pc := m.pc + (Instruction.access op slot).width index } := by
  simp only [Code.accessBytes] at h
  simp only [Instruction.width]
  split at h
  · rename_i hshort
    have hbyte : op.shortByte + slot.toNat.toUInt8 =
        (Opcode.shortAccess op ⟨slot.toNat, by omega⟩).byte := rfl
    rw [hbyte] at h
    rw [h.step, if_pos (by omega)]
    exact bind_eq_of_ok (advance_eq 1 m) _
  · rename_i hshort
    rw [if_neg (by omega)]
    split at h
    · rename_i hbyte
      have hslot : slot.toNat.toUInt8.toNat = slot.toNat := by
        simp only [Nat.toUInt8, UInt8.toNat_ofNat']
        omega
      have hop : op.byte = (Opcode.access op).byte := rfl
      rw [hop] at h
      rw [h.step, if_pos (by omega)]
      refine (bind_eq_of_ok h.operand8 _).trans ?_
      rw [hslot]
    · rename_i hbyte
      rw [if_neg (by omega)]
      simp only [List.cons_append, List.nil_append] at h
      rw [h.step]
      exact bind_eq_of_ok (h.operand24 (by omega)) _

/-- The distance to a position of the code, as it is written, leads there. -/
theorem jump_eq {start target : Nat} (htarget : target < m.code.size)
    (hshort : Layout.isShortSized ((target : Int) - start) = true) :
    jump start (signed16 (((target : Int) - start) % 65536).toNat) m =
      .ok () { m with pc := target } := by
  have hsum : (start : Int) + (target - start) = target := by omega
  simp only [jump, signed16_mod hshort, hsum, Int.toNat_natCast]
  rw [if_neg (by omega)]

theorem Has.step_goto {target : Nat} (htarget : target < m.code.size)
    (hshort : Layout.isShortSized ((target : Int) - m.pc) = true)
    (h : m.Has (Opcode.goto.byte :: Bytes.u16 (((target : Int) - m.pc) % 65536).toNat)) :
    Machine.step m = .ok false { m with pc := target } := by
  rw [h.step]
  refine (bind_eq_of_ok (h.operand16 (by omega)) _).trans ?_
  refine (bind_eq_of_ok (jump_eq ?_ hshort) _).trans rfl
  exact htarget

/-- Takes two numbers from the stack and acts if the relation holds between them. -/
def compare (relation : Relation) (taken : Action Unit) : Action Unit := do
  let right ← popInt
  let left ← popInt
  if relation.holds left right then taken

theorem Has.step_branch {relation : Relation} {offset : Nat} (hoffset : offset < 65536)
    (h : m.Has ((Opcode.branch relation).byte :: Bytes.u16 offset)) :
    Machine.step m = (do compare relation (jump m.pc (signed16 offset)); return false)
      { m with pc := m.pc + 3 } := by
  rw [h.step]
  exact bind_congr_at (bind_eq_of_ok (h.operand16 hoffset) _) _

theorem Has.fieldOperand {b : UInt8} {index : Nat} {member : Member}
    (h : m.Has (b :: Bytes.u16 index)) (hindex : index < 65536)
    (hc : constantAt m.constants index = .ok (.fieldRef member)) :
    fieldOperand m = .ok member { m with pc := m.pc + 3 } := by
  refine (bind_eq_of_ok (h.operand16 hindex) _).trans ?_
  refine (bind_eq_of_ok (a := .fieldRef member) (r := { m with pc := m.pc + 3 }) ?_ _).trans rfl
  simp only [constant, hc]

theorem Has.methodOperand {b : UInt8} {index : Nat} {member : Member}
    (h : m.Has (b :: Bytes.u16 index)) (hindex : index < 65536)
    (hc : constantAt m.constants index = .ok (.methodRef member)) :
    methodOperand m = .ok member { m with pc := m.pc + 3 } := by
  refine (bind_eq_of_ok (h.operand16 hindex) _).trans ?_
  refine (bind_eq_of_ok (a := .methodRef member) (r := { m with pc := m.pc + 3 }) ?_ _).trans rfl
  simp only [constant, hc]

end Machine

end ClassForge
