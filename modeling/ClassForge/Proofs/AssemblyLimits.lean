import ClassForge.Proofs.BodyLayout

/-! Why the assembly of a sequence fails. When the labels, the operands and the stack heights are in
order, what is left are the sizes of the class file. An instruction always fits its space. -/

namespace ClassForge

/-- The error tells of a limit that the instruction exceeds. Only text is ever too long. -/
def InstructionError.IsLimit (pool : ConstantPool) (i : Instruction) : InstructionError → Prop
  | .slotOutOfRange slot => 65535 < slot
  | .offsetOutOfRange offset => offset < -32768 ∨ 32767 < offset
  | .pool (.overflow _) => 65534 < pool.count
  | .pool (.tooLong text) => i = .pushText text ∧ 65535 < (ModifiedUtf8.encode text).length
  | _ => False

/-- The error tells of a limit of the class file that the sequence exceeds. -/
def AssemblyError.IsLimit (pool : ConstantPool) : AssemblyError → Prop
  | bodyTooLong length => 65535 < length
  | instruction _ i cause => cause.IsLimit pool i
  | _ => False

/-- Every error of the operation is of the given kind, in the pool that it leaves. -/
def ConstantPool.Fails {ε α : Type} (x : EStateM ε ConstantPool α)
    (kind : ConstantPool → ε → Prop) : Prop :=
  ∀ (pool pool' : ConstantPool) (e : ε), x pool = .error e pool' → kind pool' e

namespace ConstantPool

variable {ε ε' α β : Type} {kind : ConstantPool → ε → Prop} {kind' : ConstantPool → ε' → Prop}

theorem Fails.pure (a : α) : Fails (Pure.pure a : EStateM ε ConstantPool α) kind := by
  intro pool pool' e h
  cases h

theorem Fails.bind {x : EStateM ε ConstantPool α} {f : α → EStateM ε ConstantPool β}
    (hx : Fails x kind) (hf : ∀ a, Fails (f a) kind) : Fails (x >>= f) kind := by
  intro pool pool' e h
  rcases error_of_bind_eq_error h with h | ⟨a, _, -, h⟩
  · exact hx _ _ _ h
  · exact hf a _ _ _ h

theorem Fails.adapt {x : EStateM ε ConstantPool α} {f : ε → ε'} (hx : Fails x kind)
    (hf : ∀ pool e, kind pool e → kind' pool (f e)) : Fails (x.adaptExcept f) kind' := by
  intro pool pool' e h
  obtain ⟨e', he, rfl⟩ := adaptExcept_eq_error.mp h
  exact hf _ _ (hx _ _ _ he)

/-- The pool is full. -/
def IsFull (pool : ConstantPool) (e : PoolError) : Prop :=
  (∃ key, e = .overflow key) ∧ 65534 < pool.count

/-- The text fits a pool entry. -/
def Fitting (text : Bytes) : Prop :=
  (ModifiedUtf8.encode text).length ≤ 65535
deriving Decidable

theorem intern_fails (key : Bytes) (entry : PoolEntry) : Fails (intern key entry) IsFull := by
  intro pool pool' e h
  simp only [intern] at h
  split at h
  · cases h
  · split at h
    · rename_i hfull
      cases h
      exact ⟨⟨key, rfl⟩, hfull⟩
    · cases h

theorem utf8_fails {text : Bytes} (ht : Fitting text) : Fails (utf8 text) IsFull := by
  simp only [utf8, Nat.not_lt.mpr ht, if_false]
  exact intern_fails _ _

theorem classRef_fails {name : Bytes} (hn : Fitting name) : Fails (classRef name) IsFull :=
  (utf8_fails hn).bind fun _ => intern_fails _ _

theorem nameAndType_fails {name descriptor : Bytes} (hn : Fitting name) (hd : Fitting descriptor) :
    Fails (nameAndType name descriptor) IsFull :=
  (utf8_fails hn).bind fun _ => (utf8_fails hd).bind fun _ => intern_fails _ _

end ConstantPool

open ConstantPool (Fails Fitting IsFull)

/-- All names of the member fit the pool. -/
def Member.Fits (m : Member) : Prop :=
  Fitting m.owner ∧ Fitting m.name ∧ Fitting m.descriptor
deriving Decidable

theorem ConstantPool.fieldRef_fails {m : Member} (hm : m.Fits) :
    Fails (fieldRef m.owner m.name m.descriptor) IsFull :=
  (classRef_fails hm.1).bind fun _ => (nameAndType_fails hm.2.1 hm.2.2).bind fun _ =>
    intern_fails _ _

theorem ConstantPool.methodRef_fails {m : Member} (hm : m.Fits) :
    Fails (methodRef m.owner m.name m.descriptor) IsFull :=
  (classRef_fails hm.1).bind fun _ => (nameAndType_fails hm.2.1 hm.2.2).bind fun _ =>
    intern_fails _ _

/-- The opcode is known, the slot is not negative, and the names fit the pool. -/
def Instruction.IsOrderly : Instruction → Prop
  | simple op => (Opcode.ofByte? op).isSome
  | access _ slot => 0 ≤ slot
  | field _ m | invoke _ m => m.Fits
  | type _ name => Fitting name
  | _ => True

namespace Layout

theorem request_fails {x : ConstantPool.Pooled Nat} (i : Instruction) (hx : Fails x IsFull) :
    Fails (request x) fun pool e => e.IsLimit pool i := by
  refine hx.adapt ?_
  rintro pool e ⟨⟨key, rfl⟩, hfull⟩
  exact hfull

theorem measure_fails {i : Instruction} (hi : i.IsOrderly) :
    Fails (measure i) fun pool e => e.IsLimit pool i := by
  cases i with
  | mark label => exact .pure _
  | jump op label => exact .pure _
  | simple op =>
    have hop : (Opcode.ofByte? op).isSome = true := hi
    simp only [measure, hop, if_true]
    exact .pure _
  | pushInt value =>
    simp only [measure]
    repeat' split
    · exact .pure _
    · exact .pure _
    · exact .pure _
    · exact (request_fails _ (ConstantPool.intern_fails _ _)).bind fun _ => .pure _
  | pushText text =>
    refine Fails.bind ?_ fun _ => .pure _
    by_cases ht : Fitting text
    · exact request_fails _ ((ConstantPool.utf8_fails ht).bind fun _ =>
        ConstantPool.intern_fails _ _)
    · intro pool pool' e h
      have hlong : 65535 < (ModifiedUtf8.encode text).length := Nat.not_le.mp ht
      obtain ⟨e', he, rfl⟩ := adaptExcept_eq_error.mp h
      simp only [ConstantPool.stringRef, ConstantPool.utf8, hlong, if_true] at he
      cases he
      exact ⟨rfl, hlong⟩
  | access op slot =>
    intro pool pool' e h
    simp only [measure] at h
    split at h
    · rename_i hslot
      cases h
      -- An orderly slot is not negative, so it can only be too large.
      have : (0 : Int) ≤ slot := hi
      exact (show (65535 : Int) < slot by omega)
    · repeat' split at h
      all_goals cases h
  | field op m =>
    exact (request_fails _ (ConstantPool.fieldRef_fails hi)).bind fun _ => .pure _
  | invoke op m =>
    exact (request_fails _ (ConstantPool.methodRef_fails hi)).bind fun _ => .pure _
  | type op name =>
    exact (request_fails _ (ConstantPool.classRef_fails hi)).bind fun _ => .pure _

theorem arrange_fails {instructions : List Instruction} (hi : ∀ i ∈ instructions, i.IsOrderly)
    (done : Array Placement) (position : Nat) :
    Fails (arrange done position instructions) fun pool e => e.IsLimit pool := by
  induction instructions generalizing done position with
  | nil => exact .pure _
  | cons i rest ih =>
    have hmeasure : Fails ((measure i).adaptExcept (AssemblyError.instruction done.size i))
        fun pool e => AssemblyError.IsLimit pool e :=
      (measure_fails (hi i (by simp))).adapt fun _ _ he => he
    exact hmeasure.bind fun _ => ih (fun j hj => hi j (by simp [hj])) _ _

end Layout

namespace Code

variable {code : Code} {pool pool' : ConstantPool}

/-- An instruction is written in the bytes that were set aside for it. -/
theorem length_instructionBytes {placements : Array Placement} {length : Nat} {p : Placement}
    {i : Instruction} {data : Bytes} (hsize : p.size = i.width p.index)
    (h : instructionBytes code placements length p i = .ok data) :
    data.length = i.width p.index := by
  cases i with
  | jump op label =>
    simp only [instructionBytes, jumpBytes] at h
    split at h
    · cases h
    · split at h
      · cases h
      · split at h
        · cases h
          simp [Instruction.width, Bytes.u16]
        · cases h
  | pushInt value =>
    cases h
    rw [hsize]
    exact (pushForm_width value p.index).length_eq
  | pushText text =>
    cases h
    exact length_loadConstant _
  | access op slot =>
    cases h
    simp only [accessBytes, Instruction.width]
    repeat' split
    all_goals first | omega | simp [Bytes.u16]
  | _ =>
    cases h
    simp [Instruction.width, Bytes.u16]

/-- Every jump goes to a position before the end of the body. -/
def Lands (code : Code) (placements : Array Placement) (length : Nat) : Instruction → Prop
  | .jump _ label => ∃ target, code.position? placements label = some target ∧ target < length
  | _ => True

theorem instructionBytes_fails {placements : Array Placement} {length : Nat} {p : Placement}
    {i : Instruction} {e : InstructionError} (hl : code.Lands placements length i)
    (h : instructionBytes code placements length p i = .error e) : e.IsLimit pool i := by
  cases i with
  | jump op label =>
    obtain ⟨target, hposition, hlt⟩ := hl
    simp only [instructionBytes, jumpBytes, hposition, ge_iff_le, Nat.not_le.mpr hlt,
      if_false] at h
    split at h
    · cases h
    · rename_i hshort
      cases h
      simp only [Layout.isShortSized, Bool.and_eq_true, decide_eq_true_eq] at hshort
      simp only [InstructionError.IsLimit]
      omega
  | _ => cases h

/-- Writing fails only at an instruction that cannot be written, never for want of space. -/
theorem encodeFrom_eq_error {placements : Array Placement} {length position stop index : Nat}
    {instructions : List Instruction} {rest : List Placement} {out : Array UInt8}
    {e : AssemblyError} (harranged : Layout.Arranged pool position instructions rest stop)
    (hout : out.size = position)
    (h : encodeFrom code placements length out index (instructions.zip rest) = .error e) :
    ∃ k i p cause, i ∈ instructions ∧
      instructionBytes code placements length p i = .error cause ∧ e = .instruction k i cause := by
  induction harranged generalizing out index with
  | nil =>
    simp only [List.zip_nil_left, encodeFrom] at h
    cases h
  | cons hencode hrefers hrest ih =>
    simp only [List.zip_cons_cons, encodeFrom] at h
    split at h
    · rename_i cause hcause
      cases h
      exact ⟨_, _, _, cause, List.mem_cons_self, hcause, rfl⟩
    · rename_i data hdata
      have hsize : (out ++ data).size = out.size + data.length := by
        rw [← Array.length_toList]
        simp
      have hlength := length_instructionBytes rfl hdata
      dsimp only at hlength
      simp only [hsize, hlength, hout, ne_eq, not_true_eq_false, if_false] at h
      obtain ⟨k, i, p, cause, hi, hcause, he⟩ := ih (by omega) h
      exact ⟨k, i, p, cause, List.mem_cons_of_mem _ hi, hcause, he⟩

theorem encode_eq_error {placements : Array Placement} {length : Nat} {e : AssemblyError}
    (harranged : Layout.Arranged pool 0 code.entries.toList placements.toList length)
    (h : code.encode placements length = .error e) :
    ∃ k i p cause, i ∈ code.entries ∧
      instructionBytes code placements length p i = .error cause ∧ e = .instruction k i cause := by
  cases hout : encodeFrom code placements length #[] 0
      (code.entries.toList.zip placements.toList) with
  | ok out =>
    rw [encode, hout] at h
    cases h
  | error e' =>
    rw [encode, hout] at h
    cases h
    obtain ⟨k, i, p, cause, hi, hcause, he⟩ := encodeFrom_eq_error harranged rfl hout
    exact ⟨k, i, p, cause, by simpa using hi, hcause, he⟩

theorem encode_fails {placements : Array Placement} {length : Nat} {e : AssemblyError}
    (harranged : Layout.Arranged pool 0 code.entries.toList placements.toList length)
    (hl : ∀ i ∈ code.entries, code.Lands placements length i)
    (h : code.encode placements length = .error e) : e.IsLimit pool' := by
  obtain ⟨k, i, p, cause, hi, hcause, rfl⟩ := encode_eq_error harranged h
  exact instructionBytes_fails (hl i hi) hcause

/-- What an orderly sequence promises: its labels are placed, its last entry is an instruction, its
entries are in order and the stack heights can be followed. -/
structure Orderly (code : Code) : Prop where
  isOpen : code.isSealed = false
  placed : ∀ label : Label, label.number < code.places.size →
    ∃ k, code.place? label = some k ∧ k < code.entries.size
  owned : ∀ {k : Nat} {op : JumpOp} {label : Label}, code.entries[k]? = some (.jump op label) →
    code.owns label = true
  ends : ∃ i, code.entries[code.entries.size - 1]? = some i ∧ i.isMark = false
  entries : ∀ i ∈ code.entries, i.IsOrderly
  followed : ∃ known, code.stackHeights = .ok known

namespace Orderly

theorem verifyLabels (hc : code.Orderly) : code.verifyLabels = .ok () := by
  have hnone : code.unplaced? = none := by
    simp only [unplaced?, Option.map_eq_none_iff, Array.findIdx?_eq_none_iff]
    intro place hplace
    obtain ⟨n, hn, rfl⟩ := Array.mem_iff_getElem.mp hplace
    obtain ⟨k, hk, -⟩ := hc.placed ⟨code.serial, n⟩ hn
    rw [place?, Array.getElem?_eq_getElem hn, Option.join_some] at hk
    simp [hk]
  have hown : code.entries.findIdx? code.isForeignJump = none := by
    rw [Array.findIdx?_eq_none_iff]
    intro i hi
    obtain ⟨k, hk⟩ := Array.getElem?_of_mem hi
    cases i with
    | jump op label => simp [isForeignJump, hc.owned hk]
    | _ => rfl
  simp only [Code.verifyLabels, hnone, hown]

theorem lands {placements : Array Placement} {length : Nat} (hc : code.Orderly)
    (harranged : Layout.Arranged pool 0 code.entries.toList placements.toList length)
    {i : Instruction} (hi : i ∈ code.entries) : code.Lands placements length i := by
  cases i with
  | jump op label =>
    obtain ⟨m, hm⟩ := Array.getElem?_of_mem hi
    have hown : label.owner = code.serial ∧ label.number < code.places.size := by
      simpa [owns] using hc.owned hm
    obtain ⟨k, hk, hlt⟩ := hc.placed label hown.2
    obtain ⟨last, hlast, hmark⟩ := hc.ends
    obtain ⟨p, hp, hposition, -⟩ := harranged.placement (Array.getElem?_eq_getElem hlt)
    refine ⟨p.position, by simp [position?, hk, hp], ?_⟩
    have hmono := harranged.start_mono (show k ≤ code.entries.size - 1 by omega)
    have hend := harranged.start_lt_succ hlast hmark
    rw [harranged.start_of_size_le (show code.entries.size ≤ code.entries.size - 1 + 1 by omega)]
      at hend
    omega
  | _ => trivial

theorem layout_fails (hc : code.Orderly) (hv : pool.Valid) {e : AssemblyError}
    (h : code.layout pool = .error e pool') : e.IsLimit pool' := by
  simp only [layout] at h
  rcases error_of_bind_eq_error h with h | ⟨⟨placements, length⟩, pool₁, harrange, h⟩
  · exact Layout.arrange_fails (fun i hi => hc.entries i (by simpa using hi)) _ _ _ _ _ h
  · obtain ⟨-, -, rest, hrest, harranged⟩ :=
      (Layout.arrange_keeps code.entries.toList #[] 0).of_ok hv trivial harrange
    obtain ⟨last, hlast, hmark⟩ := hc.ends
    simp only [List.nil_append] at hrest
    rw [← hrest] at harranged
    have hpos : 0 < length := by
      have hend := harranged.start_lt_succ hlast hmark
      have hle := harranged.start_le_length (code.entries.size - 1 + 1)
      omega
    simp only [show length ≠ 0 by omega, if_false] at h
    split at h
    · rename_i hlong
      cases h
      exact hlong
    · cases h

/-- An orderly sequence is refused only for a limit of the class file. -/
theorem assemble_fails (hc : code.Orderly) (hv : pool.Valid) {least : Int} {e : AssemblyError}
    (h : code.assemble least pool = .error e pool') : e.IsLimit pool' := by
  obtain ⟨⟨heights, deepest⟩, hheights⟩ := hc.followed
  simp only [assemble, hc.isOpen, hc.verifyLabels, hheights, assemble.liftExcept, pure_bind] at h
  rcases error_of_bind_eq_error h with h | ⟨⟨placements, length⟩, pool₁, hlayout, h⟩
  · exact hc.layout_fails hv h
  · obtain ⟨-, -, harranged, -⟩ := (layout_keeps code).of_ok hv trivial hlayout
    cases hencode : code.encode placements length with
    | ok bytecode =>
      simp only [hencode] at h
      cases h
    | error e' =>
      simp only [hencode] at h
      cases h
      exact encode_fails harranged (fun i hi => hc.lands harranged hi) hencode

end Orderly

end Code

/-- The error is not that an instruction takes another space than was set aside for it. -/
def AssemblyError.IsForeseen : AssemblyError → Prop
  | unexpectedSize _ _ => False
  | _ => True

namespace Heights

variable {code : Code} {e : AssemblyError}

theorem spread_eq_error {out : Nat} {next : List Nat} {known : Heights × List Nat}
    (h : spread out next known = .error e) : e.IsForeseen := by
  induction next generalizing known with
  | nil => cases h
  | cons i more ih =>
    simp only [spread] at h
    split at h
    · exact ih h
    · split at h
      · exact ih h
      · cases h
        trivial
    · exact ih h

theorem following_eq_error {i : Nat} (h : code.following i = .error e) : e.IsForeseen := by
  unfold Code.following at h
  split at h
  · cases h
  · cases h
    trivial

theorem destination_eq_error {label : Label} (h : code.destination label = .error e) :
    e.IsForeseen := by
  unfold Code.destination at h
  split at h
  · split at h
    · cases h
    · cases h
      trivial
  · cases h
    trivial

theorem successors_eq_error {i : Nat} {instruction : Instruction}
    (h : code.successors i instruction = .error e) : e.IsForeseen := by
  have hfollowing (h : (do return [← code.following i] : Except AssemblyError (List Nat)) =
      .error e) : e.IsForeseen := by
    rcases except_bind_eq_error.mp h with hnext | ⟨_, -, hpure⟩
    · exact following_eq_error hnext
    · cases hpure
  cases instruction with
  | jump op label =>
    cases op with
    | always =>
      rcases except_bind_eq_error.mp h with htarget | ⟨_, -, hpure⟩
      · exact destination_eq_error htarget
      · cases hpure
    | when relation =>
      rcases except_bind_eq_error.mp h with htarget | ⟨_, -, hrest⟩
      · exact destination_eq_error htarget
      · rcases except_bind_eq_error.mp hrest with hnext | ⟨_, -, hpure⟩
        · exact following_eq_error hnext
        · cases hpure
  | simple op =>
    simp only [Code.successors] at h
    split at h
    · cases h
    · exact hfollowing h
  | _ => exact hfollowing h

theorem explore_eq_error {heights : Heights} {deepest : Nat} {work : List Nat}
    (h : explore code heights deepest work = .error e) : e.IsForeseen := by
  fun_induction explore code heights deepest work with
  | case1 => cases h
  | case2 =>
    cases h
    trivial
  | case3 =>
    cases h
    trivial
  | case4 =>
    rename_i hnext
    cases h
    exact successors_eq_error hnext
  | case5 =>
    rename_i hspread
    cases h
    exact spread_eq_error hspread
  | case6 =>
    rename_i ih
    exact ih h
  | case7 =>
    rename_i ih
    exact ih h

end Heights

namespace Layout

theorem arrange_eq_error {instructions : List Instruction} {done : Array Placement}
    {position : Nat} {pool pool' : ConstantPool} {e : AssemblyError}
    (h : arrange done position instructions pool = .error e pool') : e.IsForeseen := by
  induction instructions generalizing done position pool with
  | nil => cases h
  | cons i rest ih =>
    rcases error_of_bind_eq_error h with hmeasure | ⟨r, pool₁, -, hrest⟩
    · obtain ⟨cause, -, rfl⟩ := adaptExcept_eq_error.mp hmeasure
      trivial
    · exact ih hrest

end Layout

namespace Code

variable {code : Code} {pool pool' : ConstantPool} {e : AssemblyError}

theorem verifyLabels_eq_error (h : code.verifyLabels = .error e) : e.IsForeseen := by
  unfold verifyLabels at h
  split at h
  · cases h
    trivial
  · split at h
    · cases h
      trivial
    · cases h

theorem layout_eq_error (h : code.layout pool = .error e pool') : e.IsForeseen := by
  rcases error_of_bind_eq_error h with harrange | ⟨⟨placements, length⟩, pool₁, -, hrest⟩
  · exact Layout.arrange_eq_error harrange
  · dsimp only at hrest
    split at hrest
    · cases hrest
      trivial
    · split at hrest
      · cases hrest
        trivial
      · cases hrest

theorem liftExcept_eq_error {α : Type} {x : Except AssemblyError α}
    (h : assemble.liftExcept x pool = .error e pool') : x = .error e := by
  cases x with
  | error e' =>
    cases h
    rfl
  | ok a => cases h

/-- Whatever is wrong with a sequence, its instructions take the space that is set aside. -/
theorem assemble_eq_error {least : Int} (hv : pool.Valid)
    (h : code.assemble least pool = .error e pool') : e.IsForeseen := by
  simp only [assemble] at h
  split at h
  · cases h
    trivial
  rcases error_of_bind_eq_error h with hlabels | ⟨_, pool₁, hlabels, h⟩
  · exact verifyLabels_eq_error (liftExcept_eq_error hlabels)
  obtain ⟨-, rfl⟩ := liftExcept_eq_ok hlabels
  rcases error_of_bind_eq_error h with hlayout | ⟨⟨placements, length⟩, pool₂, hlayout, h⟩
  · exact layout_eq_error hlayout
  obtain ⟨-, -, harranged, -⟩ := (layout_keeps code).of_ok hv trivial hlayout
  rcases error_of_bind_eq_error h with hheights | ⟨_, pool₃, -, h⟩
  · exact Heights.explore_eq_error (liftExcept_eq_error hheights)
  rcases error_of_bind_eq_error h with hencode | ⟨_, pool₄, -, h⟩
  · obtain ⟨k, i, p, cause, -, -, rfl⟩ := encode_eq_error harranged (liftExcept_eq_error hencode)
    trivial
  · cases h

end Code

end ClassForge
