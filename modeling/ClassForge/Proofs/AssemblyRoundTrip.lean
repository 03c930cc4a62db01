import ClassForge.Proofs.CodeGrowth
import ClassForge.Proofs.Disassembly

/-! Assembled bodies read back. An accepted sequence is read from its bytes as the instructions it
was built from, and the space that was set aside for an instruction is always the space it takes. -/

namespace ClassForge

open ConstantPool (Request after)

namespace Instruction

/-- What the instruction asks the pool for. -/
def request? : Instruction → Option Request
  | pushInt value => if Layout.isShortSized value.toInt then none else some (.integer value)
  | pushText text => some (.stringRef text)
  | field _ m => some (.fieldRef m)
  | invoke _ m => some (.methodRef m)
  | type _ name => some (.classRef name)
  | _ => none

/-- Opcodes that are the whole of an instruction, reads of static fields, calls, and the making of
objects; what goes by no opcode is always among them. -/
def IsSupported : Instruction → Prop
  | simple b => ∃ op : Opcode, op.standsAlone = true ∧ b = op.byte
  | field b _ => b = Opcode.getstatic.byte
  | invoke b _ => ∃ op, b = (Opcode.invoke op).byte
  | type b _ => b = Opcode.new.byte
  | _ => True

/-- The instruction is read back. A constant is read as its value, a slot as its number, a label as
the position it leads to, and a member or class as the index that the pool has for it. -/
inductive ReadsAs (pool : ConstantPool) (leads : Label → Int → Prop) :
    Instruction → MachineInstruction → Prop
  | simple (op : Opcode) : ReadsAs pool leads (.simple op.byte) (.simple op)
  | pushInt (value : Int32) : ReadsAs pool leads (.pushInt value) (.pushInt value)
  | pushText (text : Bytes) : ReadsAs pool leads (.pushText text) (.pushText text)
  | access (op : LocalOp) (slot : Nat) : ReadsAs pool leads (.access op slot) (.access op slot)
  | jump (op : JumpOp) {label : Label} {target : Int} (h : leads label target) :
      ReadsAs pool leads (.jump op label) (.jump op target)
  | field (op : Opcode) {m : Member} {index : Nat}
      (h : (Request.fieldRef m).perform pool = .ok index pool) :
      ReadsAs pool leads (.field op.byte m) (.refer op index)
  | invoke (op : Opcode) {m : Member} {index : Nat}
      (h : (Request.methodRef m).perform pool = .ok index pool) :
      ReadsAs pool leads (.invoke op.byte m) (.refer op index)
  | type (op : Opcode) {name : Bytes} {index : Nat}
      (h : (Request.classRef name).perform pool = .ok index pool) :
      ReadsAs pool leads (.type op.byte name) (.refer op index)

theorem ReadsAs.imp {pool : ConstantPool} {leads leads' : Label → Int → Prop} {i : Instruction}
    {d : MachineInstruction} (h : i.ReadsAs pool leads d)
    (himp : ∀ label target, leads label target → leads' label target) :
    i.ReadsAs pool leads' d := by
  cases h with
  | simple op => exact .simple op
  | pushInt value => exact .pushInt value
  | pushText text => exact .pushText text
  | access op slot => exact .access op slot
  | jump op hlabel => exact .jump op (himp _ _ hlabel)
  | field op hindex => exact .field op hindex
  | invoke op hindex => exact .invoke op hindex
  | type op hindex => exact .type op hindex

end Instruction

namespace Layout

theorem request_eq_ok {x : ConstantPool.Pooled Nat} {size : Nat → Nat} {pool pool' : ConstantPool}
    {r : Nat × Nat}
    (h : (request x >>= fun index => pure (size index, index)) pool = .ok r pool') :
    x pool = .ok r.2 pool' := by
  obtain ⟨index, pool₁, hrequest, hpure⟩ := ok_of_bind_eq_ok h
  cases hpure
  exact adaptExcept_eq_ok.mp hrequest

/-- Measuring an instruction makes the request of the instruction, and no other. -/
theorem measure_eq_ok {i : Instruction} {pool pool' : ConstantPool} {r : Nat × Nat}
    (h : measure i pool = .ok r pool') :
    i.request? = none ∧ pool' = pool ∨
      ∃ q, i.request? = some q ∧ q.perform pool = .ok r.2 pool' := by
  cases i with
  | mark label =>
    cases h
    exact .inl ⟨rfl, rfl⟩
  | jump op label =>
    cases h
    exact .inl ⟨rfl, rfl⟩
  | simple op =>
    simp only [measure] at h
    split at h
    · cases h
      exact .inl ⟨rfl, rfl⟩
    · cases h
  | access op slot =>
    simp only [measure] at h
    repeat' split at h
    all_goals cases h
    all_goals exact .inl ⟨rfl, rfl⟩
  | pushInt value =>
    by_cases hshort : isShortSized value.toInt = true
    · have hnone : (Instruction.pushInt value).request? = none := by
        simp [Instruction.request?, hshort]
      simp only [measure, hshort, if_true] at h
      repeat' split at h
      all_goals cases h
      all_goals exact .inl ⟨hnone, rfl⟩
    · have hlarge : ¬ (-1 ≤ value.toInt ∧ value.toInt ≤ 5) ∧
          ¬ isByteSized value.toInt = true := by
        simp only [isShortSized, isByteSized, Bool.and_eq_true, decide_eq_true_eq] at hshort ⊢
        omega
      simp only [measure, hlarge.1, hlarge.2, hshort, if_false] at h
      exact .inr ⟨.integer value, by simp [Instruction.request?, hshort], request_eq_ok h⟩
  | pushText text => exact .inr ⟨.stringRef text, rfl, request_eq_ok h⟩
  | field op m => exact .inr ⟨.fieldRef m, rfl, request_eq_ok h⟩
  | invoke op m => exact .inr ⟨.methodRef m, rfl, request_eq_ok h⟩
  | type op name => exact .inr ⟨.classRef name, rfl, request_eq_ok h⟩

/-- The pool has at the placement the index that it gives the instruction ever after. -/
def Answered (pool : ConstantPool) (i : Instruction) (p : Placement) : Prop :=
  ∀ q, i.request? = some q → q.perform pool = .ok p.index pool

theorem arrange_answered {instructions : List Instruction} {done : Array Placement}
    {position : Nat} {pool pool' : ConstantPool} {r : Array Placement × Nat} (hv : pool.Valid)
    (h : arrange done position instructions pool = .ok r pool') :
    ∃ later placements, pool' = after later pool ∧ r.1.toList = done.toList ++ placements ∧
      List.Forall₂ (Answered pool') instructions placements := by
  induction instructions generalizing done position pool with
  | nil =>
    cases h
    exact ⟨[], [], rfl, by simp, .nil⟩
  | cons i rest ih =>
    obtain ⟨⟨size, index⟩, pool₁, hmeasure, hrest⟩ := ok_of_bind_eq_ok h
    have hmeasure := adaptExcept_eq_ok.mp hmeasure
    have hv₁ := ((measure_keeps i).of_ok hv trivial hmeasure).1
    obtain ⟨later, placements, rfl, hplacements, hanswered⟩ := ih hv₁ hrest
    have hall : r.1.toList = done.toList ++ ⟨position, size, index⟩ :: placements := by
      simpa using hplacements
    rcases measure_eq_ok hmeasure with ⟨hnone, rfl⟩ | ⟨q, hq, hperform⟩
    · refine ⟨later, _, rfl, hall, .cons (fun q hq => ?_) hanswered⟩
      rw [hnone] at hq
      cases hq
    · have hfirst : pool₁ = stateAfter (q.perform pool) := by
        rw [hperform]
        rfl
      have hafter : after later pool₁ = after (q :: later) pool := congrArg (after later) hfirst
      refine ⟨q :: later, _, hafter, hall, .cons (fun q' hq' => ?_) hanswered⟩
      rw [hq] at hq'
      cases hq'
      exact Request.perform_again hv hperform later

end Layout

namespace Code

theorem layout_answered {code : Code} {pool pool' : ConstantPool} {placements : Array Placement}
    {length k : Nat} {i : Instruction} {p : Placement} (hv : pool.Valid)
    (h : code.layout pool = .ok (placements, length) pool') (hi : code.entries[k]? = some i)
    (hp : placements[k]? = some p) : Layout.Answered pool' i p := by
  obtain ⟨⟨placements', length'⟩, pool₁, harrange, hrest⟩ := ok_of_bind_eq_ok h
  obtain ⟨later, new, hafter, hnew, hanswered⟩ := Layout.arrange_answered hv harrange
  have hsame : placements' = placements ∧ pool₁ = pool' := by
    dsimp only at hrest
    split at hrest
    · cases hrest
    · split at hrest
      · cases hrest
      · cases hrest
        exact ⟨rfl, rfl⟩
  obtain ⟨rfl, rfl⟩ := hsame
  have hnew : placements'.toList = new := by simpa using hnew
  rw [← hnew] at hanswered
  obtain ⟨hk, rfl⟩ := Array.getElem?_eq_some_iff.mp hi
  obtain ⟨hk', rfl⟩ := Array.getElem?_eq_some_iff.mp hp
  exact (List.forall₂_iff_get.mp hanswered).2 k (by simpa using hk) (by simpa using hk')

/-- The number of instructions before entry `k`. -/
def rank (code : Code) (k : Nat) : Nat :=
  (code.entries.toList.take k).countP (!·.isMark)

theorem rank_succ {code : Code} {k : Nat} {i : Instruction} (hi : code.entries[k]? = some i) :
    code.rank (k + 1) = code.rank k + if i.isMark then 0 else 1 := by
  have hget : code.entries.toList[k]? = some i := by simpa using hi
  rw [rank, rank, List.take_add_one, hget, List.countP_append]
  cases hmark : i.isMark <;> simp [hmark]

end Code

namespace Body

open Code

variable {b : Body} {k : Nat} {i : Instruction}

/-- The label belongs to the sequence and leads to the start of the entry that it marks. -/
def LeadsTo (b : Body) (label : Label) (target : Int) : Prop :=
  b.code.owns label = true ∧
    ∃ t, b.code.place? label = some t ∧ b.start t < b.bytecode.length ∧ target = b.start t

/-- All that it takes to read the body back. -/
structure Readable (b : Body) : Prop where
  supported : ∀ i ∈ b.code.entries, i.IsSupported
  owned : ∀ {k : Nat} {op : JumpOp} {label : Label}, b.code.entries[k]? = some (.jump op label) →
    b.code.owns label = true
  answered : ∀ {k : Nat} {i : Instruction} {p : Placement}, b.code.entries[k]? = some i →
    b.placements[k]? = some p → Layout.Answered b.pool i p

/-- What is read from the start of entry `k` on. -/
def reading (b : Body) (k : Nat) : Option (List (Nat × MachineInstruction)) :=
  disassemble b.pool (b.start k) (b.bytecode.drop (b.start k))

theorem Readable.decodes (h : b.Readable) (hi : b.code.entries[k]? = some i)
    (hmark : i.isMark = false) :
    ∃ d data, Decodes b.pool (b.start k) data d ∧ i.ReadsAs b.pool b.LeadsTo d ∧
      Stands b.bytecode (b.start k) data ∧ b.start (k + 1) = b.start k + data.length := by
  obtain ⟨p, data, hp, hposition, hsize, hdata, hlength, hstands, hnext, hrefers, hencode⟩ :=
    b.assembled.locate hi
  have hs := h.supported i (Array.mem_of_getElem? hi)
  have hanswered := h.answered hi hp
  have hnext : b.start (k + 1) = b.start k + data.length := hnext.trans (by rw [hlength]; rfl)
  have hposition : p.position = b.start k := hposition
  cases i with
  | mark label => cases hmark
  | simple a =>
    obtain ⟨op, hop, rfl⟩ := hs
    cases hdata
    exact ⟨_, _, decodes_simple hop, .simple op, hstands, hnext⟩
  | pushInt value =>
    have hform := pushForm_width value p.index
    rw [← hsize] at hform
    cases hdata
    refine ⟨_, _, decodes_pushInt hform fun hlarge => ?_, .pushInt value, hstands, hnext⟩
    exact ⟨b.index_lt (hrefers hlarge), (hrefers hlarge).constant?_eq⟩
  | pushText text =>
    have hconstant := ConstantPool.Denotes.constant?_eq hrefers
    cases hdata
    refine ⟨_, _, decodes_loadConstant (b.index_lt hrefers) ?_, .pushText text, hstands, hnext⟩
    rw [ConstantPool.loading?, hconstant]
  | access op slot =>
    obtain ⟨n, rfl⟩ := Int.eq_ofNat_of_zero_le hencode.1
    have hslot : n ≤ 65535 := by exact_mod_cast hencode.2
    cases hdata
    exact ⟨_, _, decodes_access hslot, .access op n, hstands, hnext⟩
  | jump op label =>
    obtain ⟨t, ht, hlt, hshort, rfl⟩ := jumpBytes_eq_ok hdata
    -- The distance was written from the position of the jump itself.
    rw [hposition] at hshort hstands hnext
    exact ⟨_, _, decodes_jump hshort, .jump op ⟨h.owned hi, t, ht, hlt, rfl⟩, hstands, hnext⟩
  | field a m =>
    cases (hs : a = Opcode.getstatic.byte)
    obtain ⟨m', hdenotes, -⟩ := hrefers
    cases hdata
    exact ⟨_, _, decodes_refer rfl (b.index_lt hdenotes), .field _ (hanswered _ rfl), hstands,
      hnext⟩
  | invoke a m =>
    obtain ⟨op, rfl⟩ := hs
    obtain ⟨m', hdenotes, -⟩ := hrefers
    cases hdata
    exact ⟨_, _, decodes_refer rfl (b.index_lt hdenotes), .invoke _ (hanswered _ rfl), hstands,
      hnext⟩
  | type a name =>
    cases (hs : a = Opcode.new.byte)
    cases hdata
    exact ⟨_, _, decodes_refer rfl (b.index_lt hrefers), .type _ (hanswered _ rfl), hstands, hnext⟩

theorem drop_of_stands {bytecode data : Bytes} {position : Nat}
    (h : Stands bytecode position data) :
    bytecode.drop position = data ++ bytecode.drop (position + data.length) := by
  obtain ⟨before, after, rfl, rfl⟩ := h
  rw [List.drop_left, List.drop_length_add_append, List.drop_left]

theorem reading_of_size_le (hk : b.code.entries.size ≤ k) : b.reading k = some [] := by
  have hend : b.start k = b.bytecode.length := b.assembled.arranged.start_of_size_le hk
  rw [reading, hend, List.drop_length, disassemble]

theorem reading_of_isMark (hi : b.code.entries[k]? = some i) (hmark : i.isMark = true) :
    b.reading k = b.reading (k + 1) := by
  cases i with
  | mark label =>
    obtain ⟨p, -, -, -, -, -, -, -, hnext, -⟩ := b.assembled.locate hi
    have hsame : b.start (k + 1) = b.start k := hnext
    rw [reading, reading, hsame]
  | _ => cases hmark

namespace Readable

variable (h : b.Readable)
include h

theorem reading_of_instruction (hi : b.code.entries[k]? = some i) (hmark : i.isMark = false) :
    ∃ d, i.ReadsAs b.pool b.LeadsTo d ∧
      b.reading k = (b.reading (k + 1)).map ((b.start k, d) :: ·) := by
  obtain ⟨d, data, hdecodes, hreads, hstands, hnext⟩ := h.decodes hi hmark
  refine ⟨d, hreads, ?_⟩
  rw [reading, drop_of_stands hstands, hdecodes.disassemble_append, reading, hnext]

theorem exists_reading {n : Nat} (hn : k + n = b.code.entries.size) :
    ∃ found, b.reading k = some found ∧
      List.Forall₂ (Instruction.ReadsAs b.pool b.LeadsTo)
        ((b.code.entries.toList.drop k).filter (!·.isMark)) (found.map Prod.snd) := by
  -- The entries are taken from the last to the first: what follows entry `k` has been read.
  induction n generalizing k with
  | zero =>
    have hnil : b.code.entries.toList.drop k = [] := List.drop_eq_nil_of_le (by simp; omega)
    refine ⟨[], reading_of_size_le (by omega), ?_⟩
    rw [hnil]
    exact .nil
  | succ n ih =>
    obtain ⟨found, hfound, hreads⟩ := @ih (k + 1) (by omega)
    have hlt : k < b.code.entries.size := by omega
    have hi := Array.getElem?_eq_getElem hlt
    have hdrop : b.code.entries.toList.drop k =
        b.code.entries[k] :: b.code.entries.toList.drop (k + 1) := by
      rw [List.drop_eq_getElem_cons (by simpa using hlt), Array.getElem_toList]
    rw [hdrop]
    by_cases hmark : b.code.entries[k].isMark = true
    · rw [List.filter_cons_of_neg (by simp [hmark])]
      exact ⟨found, (reading_of_isMark hi hmark).trans hfound, hreads⟩
    · rw [List.filter_cons_of_pos (by simp [hmark])]
      obtain ⟨d, hread, hhere⟩ := h.reading_of_instruction hi (by simpa using hmark)
      exact ⟨(b.start k, d) :: found, by rw [hhere, hfound]; rfl, .cons hread hreads⟩

theorem reading_eq_drop {found : List (Nat × MachineInstruction)}
    (hfound : b.reading 0 = some found)
    (hk : k ≤ b.code.entries.size) : b.reading k = some (found.drop (b.code.rank k)) := by
  -- Here they are taken from the first to the last, and each instruction is one step in the list.
  induction k with
  | zero => simpa [rank] using hfound
  | succ k ih =>
    have hi := Array.getElem?_eq_getElem hk
    have hbefore := ih (by omega)
    rw [rank_succ hi]
    by_cases hmark : b.code.entries[k].isMark = true
    · rw [if_pos hmark, ← reading_of_isMark hi hmark]
      exact hbefore
    · obtain ⟨d, -, hhere⟩ := h.reading_of_instruction hi (by simpa using hmark)
      rw [hbefore] at hhere
      obtain ⟨others, hothers, heq⟩ := Option.map_eq_some_iff.mp hhere.symm
      rw [if_neg hmark, ← List.drop_drop, ← heq, hothers]
      rfl

theorem getElem?_rank {found : List (Nat × MachineInstruction)} (hfound : b.reading 0 = some found)
    (hk : b.start k < b.bytecode.length) :
    ∃ d, found[b.code.rank k]? = some (b.start k, d) := by
  have hin : k ≤ b.code.entries.size := by
    by_contra hout
    have hend : b.start k = b.bytecode.length :=
      b.assembled.arranged.start_of_size_le (by omega)
    omega
  have hreading := h.reading_eq_drop hfound hin
  rw [reading, List.drop_eq_getElem_cons hk] at hreading
  obtain ⟨d, others, hhead⟩ := disassemble_cons hreading
  refine ⟨d, ?_⟩
  rw [← List.head?_drop, hhead, List.head?_cons]

end Readable

end Body

namespace Code

/-- What can be done with a sequence while it is built. -/
inductive Call where
  | newLabel
  | place (label : Label)
  | emit (op : UInt8)
  | pushInt (value : Int32)
  | pushText (text : Bytes)
  | access (op : UInt8) (slot : Int)
  | jump (op : UInt8) (target : Label)
  | field (op : UInt8) (member : Member)
  | invoke (op : UInt8) (member : Member)
  | type (op : UInt8) (name : Bytes)

def Call.run : Call → Coded Unit
  | newLabel => do let _ ← Code.newLabel
  | place label => Code.place label
  | emit op => Code.emit op
  | pushInt value => Code.pushInt value
  | pushText text => Code.pushText text
  | access op slot => Code.access op slot
  | jump op target => Code.jump op target
  | field op member => Code.field op member
  | invoke op member => Code.invoke op member
  | type op name => Code.type op name

/-- The sequence that a run of calls makes of an empty one. A call that fails changes nothing. -/
def build (serial : Nat) (calls : List Call) : Code :=
  calls.foldl (fun code call => stateAfter (call.run code)) { serial }

variable {code : Code}

theorem stateAfter_append (hopen : code.isSealed = false) (i : Instruction) :
    stateAfter (append i code) = code.push i := by
  simp [append, hopen, stateAfter, push]

theorem Call.run_cases (hopen : code.isSealed = false) (call : Call) :
    stateAfter (call.run code) = code ∨ stateAfter (call.run code) = code.addLabel ∨
      (∃ label, code.owns label = true ∧ stateAfter (call.run code) = code.mark label) ∨
      ∃ i, stateAfter (call.run code) = code.push i := by
  cases call with
  | newLabel => exact .inr (.inl rfl)
  | place label =>
    by_cases howns : code.owns label = true
    · by_cases hplaced : (code.place? label).isSome = true
      · exact .inl (by simp [run, Code.place, howns, hplaced, stateAfter])
      · refine .inr (.inr (.inl ⟨label, howns, ?_⟩))
        simp [run, Code.place, howns, hplaced, append, hopen, stateAfter, mark, push]
    · exact .inl (by simp [run, Code.place, howns, stateAfter])
  | access op slot =>
    cases hop : LocalOp.ofByte? op with
    | none => exact .inl (by simp only [run, Code.access, hop]; rfl)
    | some op =>
      refine .inr (.inr (.inr ⟨.access op slot, ?_⟩))
      simp only [run, Code.access, hop]
      exact stateAfter_append hopen _
  | jump op target =>
    cases hop : JumpOp.ofByte? op with
    | none => exact .inl (by simp only [run, Code.jump, hop]; rfl)
    | some op =>
      refine .inr (.inr (.inr ⟨.jump op target, ?_⟩))
      simp only [run, Code.jump, hop]
      exact stateAfter_append hopen _
  | emit op => exact .inr (.inr (.inr ⟨_, stateAfter_append hopen _⟩))
  | pushInt value => exact .inr (.inr (.inr ⟨_, stateAfter_append hopen _⟩))
  | pushText text => exact .inr (.inr (.inr ⟨_, stateAfter_append hopen _⟩))
  | field op member => exact .inr (.inr (.inr ⟨_, stateAfter_append hopen _⟩))
  | invoke op member => exact .inr (.inr (.inr ⟨_, stateAfter_append hopen _⟩))
  | type op name => exact .inr (.inr (.inr ⟨_, stateAfter_append hopen _⟩))

theorem Placed.run (hopen : code.isSealed = false) (h : code.Placed) (call : Call) :
    (stateAfter (call.run code)).isSealed = false ∧ (stateAfter (call.run code)).Placed := by
  rcases call.run_cases hopen with heq | heq | ⟨label, howns, heq⟩ | ⟨i, heq⟩
  · rw [heq]
    exact ⟨hopen, h⟩
  · rw [heq]
    exact ⟨hopen, h.addLabel⟩
  · rw [heq]
    exact ⟨hopen, h.mark howns⟩
  · rw [heq]
    exact ⟨hopen, h.push i⟩

theorem placed_build (serial : Nat) (calls : List Call) : (build serial calls).Placed := by
  suffices h : ∀ code : Code, code.isSealed = false → code.Placed →
      (calls.foldl (fun code call => stateAfter (call.run code)) code).Placed from
    h { serial } rfl (Labelled.empty serial).isPlaced
  induction calls with
  | nil => exact fun _ _ h => h
  | cons call calls ih =>
    intro code hopen h
    obtain ⟨hopen', h'⟩ := h.run hopen call
    exact ih _ hopen' h'

theorem owns_of_verifyLabels (h : code.verifyLabels = .ok ()) {k : Nat} {op : JumpOp}
    {label : Label} (hk : code.entries[k]? = some (.jump op label)) : code.owns label = true := by
  unfold verifyLabels at h
  split at h
  · cases h
  split at h
  · cases h
  next hnone =>
  have hforeign := Array.findIdx?_eq_none_iff.mp hnone _ (Array.mem_of_getElem? hk)
  simpa [isForeignJump] using hforeign

/-- An accepted sequence that was built of supported instructions is read back from its bytes, one
instruction after another up to the last byte. A label leads to the first instruction behind its
mark. Instructions of any kind take the space that was set aside for them. -/
theorem assembled_body_reads_back (serial : Nat) (calls : List Call) (requests : List Request)
    (least : Int) :
    let code := build serial calls
    let pool := after requests {}
    (∀ method pool', (∀ i ∈ code.entries, i.IsSupported) →
      code.assemble least pool = .ok method pool' →
      ∃ decoded, disassemble pool' 0 method.bytecode = some decoded ∧
        List.Forall₂
          (Instruction.ReadsAs pool' fun label target => ∃ t position d,
            code.place? label = some t ∧ code.entries[t]? = some (.mark label) ∧
            decoded[code.rank t]? = some (position, d) ∧ target = position)
          (code.entries.toList.filter (!·.isMark)) (decoded.map Prod.snd)) ∧
    ∀ k i pool', code.assemble least pool ≠ .error (.unexpectedSize k i) pool' := by
  intro code pool
  have hv : pool.Valid := (ConstantPool.after_sound requests .empty).1
  refine ⟨?_, fun k i pool' h => assemble_eq_error hv h⟩
  intro method pool' hsupported h
  have hverified := (assemble_eq_ok h).2.1
  obtain ⟨b, hcode, hpool, hbytecode, -, -, hlayout, -⟩ := body_of_assemble hv h
  have hread : b.Readable := by
    refine ⟨?_, ?_, ?_⟩
    · rwa [hcode]
    · rw [hcode]
      exact owns_of_verifyLabels hverified
    · rw [hcode, hpool]
      exact layout_answered hv hlayout
  have hstart : b.start 0 = 0 := b.assembled.arranged.start_zero
  obtain ⟨decoded, hdecoded, hreads⟩ :=
    hread.exists_reading (Nat.zero_add b.code.entries.size)
  refine ⟨decoded, ?_, ?_⟩
  · rw [← hdecoded, Body.reading, hstart, List.drop_zero, hpool, hbytecode]
  · rw [List.drop_zero, hcode, hpool] at hreads
    refine hreads.imp fun i d hi => hi.imp fun label target => ?_
    rintro ⟨howns, t, ht, hlt, rfl⟩
    obtain ⟨d, hd⟩ := hread.getElem?_rank hdecoded hlt
    rw [hcode] at howns ht hd
    exact ⟨t, b.start t, d, ht, placed_build serial calls label t howns ht, hd, rfl⟩

/-- A loop with a jump back and one forward, over a far slot and constants of the pool. -/
def farLoop : List Call :=
  [.newLabel, .newLabel, .place ⟨0, 0⟩, .access (Opcode.access .iload).byte 300, .pushInt 100000,
    .jump (Opcode.branch .lt).byte ⟨0, 1⟩, .pushText "more", .emit Opcode.pop.byte,
    .jump Opcode.goto.byte ⟨0, 0⟩, .place ⟨0, 1⟩, .emit Opcode.returnVoid.byte]

theorem assembled_body_reads_back_farLoop :
    ∃ method pool' decoded, (build 0 farLoop).assemble 0 (after [] {}) = .ok method pool' ∧
      disassemble pool' 0 method.bytecode = some decoded ∧ decoded.length = 7 ∧
      ∃ position d, decoded[0]? = some (position, d) ∧
        (decoded.map Prod.snd)[5]? = some (.jump .always position) := by
  have hentries : (build 0 farLoop).entries = #[.mark ⟨0, 0⟩, .access .iload 300, .pushInt 100000,
      .jump (.when .lt) ⟨0, 1⟩, .pushText "more", .simple Opcode.pop.byte, .jump .always ⟨0, 0⟩,
      .mark ⟨0, 1⟩, .simple Opcode.returnVoid.byte] := by cbv
  have hsupported : ∀ i ∈ (build 0 farLoop).entries, i.IsSupported := by
    rw [hentries]
    simp only [List.mem_toArray, List.forall_mem_cons]
    exact ⟨trivial, trivial, trivial, trivial, trivial, ⟨.pop, rfl, rfl⟩, trivial, trivial,
      ⟨.returnVoid, rfl, rfl⟩, by simp⟩
  have hrun : outcomeIs (fun method _ => method.bytecode.length == 16)
      ((build 0 farLoop).assemble 0 (after [] {})) = true := by cbv
  obtain ⟨method, pool', hok, -⟩ := of_outcomeIs hrun
  obtain ⟨decoded, hdecoded, hreads⟩ :=
    (assembled_body_reads_back 0 farLoop [] 0).1 method pool' hsupported hok
  have hseven : decoded.length = 7 := by
    have hlength := hreads.length_eq
    rw [hentries, List.length_map] at hlength
    exact hlength.symm
  have hback : ((build 0 farLoop).entries.toList.filter (!·.isMark))[5]? =
      some (.jump .always ⟨0, 0⟩) := by
    rw [hentries]
    rfl
  obtain ⟨hlt, hback⟩ := List.getElem?_eq_some_iff.mp hback
  have hread := (List.forall₂_iff_get.mp hreads).2 5 hlt (by simp [hseven])
  rw [List.get_eq_getElem, hback] at hread
  refine ⟨method, pool', decoded, hok, hdecoded, hseven, ?_⟩
  generalize hd : (decoded.map Prod.snd).get ⟨5, by simp [hseven]⟩ = d at hread
  cases hread with
  | jump op hleads =>
    obtain ⟨t, position, d, hplace, -, hposition, rfl⟩ := hleads
    have hfirst : (build 0 farLoop).place? ⟨0, 0⟩ = some 0 := by cbv
    rw [hfirst] at hplace
    cases hplace
    refine ⟨position, d, hposition, ?_⟩
    rw [← hd, List.get_eq_getElem, List.getElem?_eq_getElem]

end Code

end ClassForge
