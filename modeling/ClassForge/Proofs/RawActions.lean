import ClassForge.Proofs.RawMachine
import ClassForge.Proofs.SafeActions

/-! The parts of instructions that reach into memory. Each makes its test before the access, and so
comes to the same over plain memory. A scanner is reached without a test; it is always there, since
every scanner that a value refers to has been made. -/

namespace ClassForge

namespace RawMachine

variable {α β : Type} {c : Prop} [Decidable c]

theorem get_bind (f : RawMachine → Action β) (m : RawMachine) : (get >>= f) m = f m m :=
  rfl

theorem memory_bind {x : Except Crash α} {a : α} (h : x = .ok a) (f : α → Action β) :
    (memory x >>= f) = f a := by
  rw [h]
  rfl

theorem faultIf_bind_of_not (h : ¬ c) (cause : Fault) (f : Unit → Action β) :
    (faultIf c cause >>= f) = f () := by
  rw [faultIf, if_neg h]
  rfl

theorem faultIf_bind_of (h : c) (cause : Fault) (f : Unit → Action β) :
    (faultIf c cause >>= f) = fault cause := by
  rw [faultIf, if_pos h]
  rfl

end RawMachine

/-- A scanner that the value refers to is there. -/
def Value.Allocated (v : Value) (m : Machine) : Prop :=
  ∀ number, v = .scanner number → number < m.scanners.size

namespace Machine

def streamOf : Bool → Option Unit
  | true => some ()
  | false => none

/-- The machine as it stands in plain memory. -/
def raw (m : Machine) : RawMachine where
  pool := #[none] ++ m.constants.map some
  code := m.code
  maxStack := m.maxStack
  pc := m.pc
  locals := m.locals
  stack := m.stack
  scanners := m.scanners.map streamOf
  input := m.input
  output := m.output

section Fields

variable (m : Machine)

@[simp] theorem raw_code : m.raw.code = m.code := rfl

@[simp] theorem raw_maxStack : m.raw.maxStack = m.maxStack := rfl

@[simp] theorem raw_pc : m.raw.pc = m.pc := rfl

@[simp] theorem raw_locals : m.raw.locals = m.locals := rfl

@[simp] theorem raw_stack : m.raw.stack = m.stack := rfl

@[simp] theorem raw_input : m.raw.input = m.input := rfl

@[simp] theorem raw_output : m.raw.output = m.output := rfl

@[simp] theorem size_raw_scanners : m.raw.scanners.size = m.scanners.size := by
  simp [raw]

@[simp] theorem size_raw_pool : m.raw.pool.size = m.constants.size + 1 := by
  simp [raw, Nat.add_comm]

end Fields

structure Sound (m : Machine) : Prop where
  height : m.stack.size ≤ m.maxStack
  stacked : ∀ v ∈ m.stack, v.Allocated m
  stored : ∀ v ∈ m.locals, v.Allocated m

variable {α β : Type} {m m' : Machine}

/-- The two actions come to the same, and neither takes the machine out of bounds. -/
def Mirrors (x : RawMachine.Action α) (y : Action α) (m : Machine)
    (post : α → Machine → Prop) : Prop :=
  match y m with
  | .ok a m' => x m.raw = .ok a m'.raw ∧ m'.Sound ∧ m.SameFrame m' ∧ post a m'
  | .error e m' => x m.raw = .error (.fault e) m'.raw ∧ m'.Sound ∧ m.SameFrame m'

section Mirrors

variable {x : RawMachine.Action α} {y : Action α} {f : α → RawMachine.Action β} {g : α → Action β}
variable {mid post : α → Machine → Prop} {last : β → Machine → Prop} {a : α}

theorem Mirrors.of_ok (hy : y m = .ok a m') (hx : x m.raw = .ok a m'.raw) (hm : m'.Sound)
    (hframe : m.SameFrame m') (hpost : post a m') : Mirrors x y m post := by
  simp only [Mirrors, hy]
  exact ⟨hx, hm, hframe, hpost⟩

theorem Mirrors.of_error {e : Fault} (hm : m.Sound) (hy : y m = .error e m)
    (hx : x m.raw = .error (.fault e) m.raw) : Mirrors x y m post := by
  simp only [Mirrors, hy]
  exact ⟨hx, hm, .refl m⟩

theorem Mirrors.pure (hm : m.Sound) (hpost : post a m) :
    Mirrors (Pure.pure a) (Pure.pure a) m post :=
  .of_ok rfl rfl hm (.refl m) hpost

theorem Mirrors.fault (hm : m.Sound) (e : Fault) :
    Mirrors (RawMachine.fault e) (throw e : Action α) m post :=
  .of_error hm rfl rfl

theorem Mirrors.bind (hx : Mirrors x y m mid)
    (hf : ∀ a m', m'.Sound → m.SameFrame m' → mid a m' → Mirrors (f a) (g a) m' last) :
    Mirrors (x >>= f) (y >>= g) m last := by
  unfold Mirrors at hx
  cases hy : y m with
  | error e m₁ =>
    simp only [hy] at hx
    obtain ⟨hraw, hsound, hframe⟩ := hx
    simp only [Mirrors, bind_eq_of_error hy]
    exact ⟨bind_eq_of_error hraw f, hsound, hframe⟩
  | ok a m₁ =>
    simp only [hy] at hx
    obtain ⟨hraw, hsound, hframe, hmid⟩ := hx
    have hnext := hf a m₁ hsound hframe hmid
    unfold Mirrors at hnext
    cases hg : g a m₁ with
    | error e m₂ =>
      simp only [hg] at hnext
      obtain ⟨hraw', hsound', hframe'⟩ := hnext
      simp only [Mirrors, bind_eq_of_ok hy, hg]
      exact ⟨(bind_eq_of_ok hraw f).trans hraw', hsound', hframe.trans hframe'⟩
    | ok b m₂ =>
      simp only [hg] at hnext
      obtain ⟨hraw', hsound', hframe', hlast⟩ := hnext
      simp only [Mirrors, bind_eq_of_ok hy, hg]
      exact ⟨(bind_eq_of_ok hraw f).trans hraw', hsound', hframe.trans hframe', hlast⟩

theorem Mirrors.imp (hx : Mirrors x y m mid) (h : ∀ a m', mid a m' → post a m') :
    Mirrors x y m post := by
  unfold Mirrors at hx ⊢
  split at hx
  · exact ⟨hx.1, hx.2.1, hx.2.2.1, h _ _ hx.2.2.2⟩
  · exact hx

end Mirrors

/-- Nothing to be said about the outcome. -/
def Anything (_ : α) (_ : Machine) : Prop := True

theorem push_full (h : m.maxStack ≤ m.stack.size) (v : Value) :
    push v m = .error (.stackOverflow m.maxStack) m ∧
      RawMachine.push v m.raw = .error (.fault (.stackOverflow m.maxStack)) m.raw := by
  constructor
  · simp only [push, if_pos h]
  · rw [RawMachine.push, RawMachine.get_bind, raw_stack, raw_maxStack,
      RawMachine.faultIf_bind_of h]
    rfl

theorem push_room (h : ¬ m.maxStack ≤ m.stack.size) (v : Value) :
    push v m = .ok () { m with stack := m.stack.push v } ∧
      RawMachine.push v m.raw = .ok () ({ m with stack := m.stack.push v } : Machine).raw := by
  constructor
  · simp only [push, if_neg h]
  · rw [RawMachine.push, RawMachine.get_bind, raw_stack, raw_maxStack,
      RawMachine.faultIf_bind_of_not h]
    rfl

theorem mirrors_push {v : Value} (hm : m.Sound) (hv : v.Allocated m) :
    Mirrors (RawMachine.push v) (push v) m fun _ m' => m'.scanners = m.scanners := by
  by_cases hfull : m.maxStack ≤ m.stack.size
  · exact .of_error hm (push_full hfull v).1 (push_full hfull v).2
  · obtain ⟨hpush, hraw⟩ := push_room hfull v
    refine .of_ok hpush hraw ⟨?_, ?_, hm.stored⟩ ⟨rfl, rfl, rfl, rfl⟩ rfl
    · simp only [Array.size_push]
      omega
    · intro w hw
      rcases Array.mem_push.mp hw with hw | rfl
      · exact hm.stacked w hw
      · exact hv

theorem mirrors_pop (hm : m.Sound) :
    Mirrors RawMachine.pop pop m fun v m' => v.Allocated m' := by
  by_cases hempty : m.stack.size = 0
  · have hback : m.stack.back? = none := by simp [Array.back?_eq_getElem?, hempty]
    have hpop : pop m = .error .stackUnderflow m := by simp only [pop, hback]
    refine .of_error hm hpop ?_
    rw [RawMachine.pop, RawMachine.get_bind, raw_stack, RawMachine.faultIf_bind_of hempty]
    rfl
  · have hlast : m.stack.size - 1 < m.stack.size := by omega
    have hback : m.stack.back? = some m.stack[m.stack.size - 1] := by
      rw [Array.back?_eq_getElem?, Array.getElem?_eq_getElem hlast]
    have hpop : pop m = .ok m.stack[m.stack.size - 1] { m with stack := m.stack.pop } := by
      simp only [pop, hback]
    have hcast : (m.stack.size : Int) - 1 = ((m.stack.size - 1 : Nat) : Int) := by omega
    have hrest : Memory.slice m.stack 0 ((m.stack.size - 1 : Nat) : Int) = .ok m.stack.pop := by
      rw [← Array.extract_eq_pop rfl]
      exact Memory.slice_natCast (Nat.zero_le _) hlast.le
    have hkept : ∀ v ∈ m.stack.pop, v ∈ m.stack := by
      intro v hv
      obtain ⟨k, hk, rfl⟩ := Array.mem_iff_getElem.mp hv
      rw [Array.getElem_pop]
      exact Array.getElem_mem _
    refine .of_ok hpop ?_ ⟨?_, fun v hv => hm.stacked v (hkept v hv), hm.stored⟩
      ⟨rfl, rfl, rfl, rfl⟩ (hm.stacked _ (Array.getElem_mem hlast))
    · rw [RawMachine.pop, RawMachine.get_bind, raw_stack, RawMachine.faultIf_bind_of_not hempty,
        hcast, RawMachine.memory_bind (Memory.element_natCast hlast),
        RawMachine.memory_bind hrest]
      rfl
    · have := hm.height
      simp only [Array.size_pop]
      omega

theorem mirrors_advance (hm : m.Sound) (n : Nat) :
    Mirrors (RawMachine.advance n) (advance n) m Anything :=
  .of_ok rfl (by rfl) ⟨hm.height, hm.stacked, hm.stored⟩ ⟨rfl, rfl, rfl, rfl⟩ trivial

theorem Sound.move (hm : m.Sound) (pc : Nat) : ({ m with pc } : Machine).Sound :=
  ⟨hm.height, hm.stacked, hm.stored⟩

/-- The bytes of an operand are taken at once, and then looked at one by one. -/
theorem mirrors_operand {n : Nat} {decode : Array UInt8 → RawMachine.Action α} {y : Action α}
    (hm : m.Sound) (hwhole : m.pc + 1 + n ≤ m.code.size →
      ∃ a, y m = .ok a { m with pc := m.pc + 1 + n } ∧
        decode (m.code.extract (m.pc + 1) (m.pc + 1 + n)) = Pure.pure a)
    (hshort : m.code.size < m.pc + 1 + n → y m = .error .truncated m) :
    Mirrors (RawMachine.operand n >>= decode) y m Anything := by
  by_cases hle : m.pc + 1 + n ≤ m.code.size
  · obtain ⟨a, hy, hdecode⟩ := hwhole hle
    have hslice : Memory.slice m.code (m.pc + 1) (m.pc + 1 + n) =
        .ok (m.code.extract (m.pc + 1) (m.pc + 1 + n)) := by
      exact_mod_cast Memory.slice_natCast (Nat.le_add_right _ n) hle
    have hraw : RawMachine.operand n m.raw = .ok (m.code.extract (m.pc + 1) (m.pc + 1 + n))
        ({ m with pc := m.pc + 1 + n } : Machine).raw := by
      rw [RawMachine.operand, RawMachine.get_bind, raw_pc, raw_code,
        RawMachine.faultIf_bind_of_not (by omega), RawMachine.memory_bind hslice]
      rfl
    refine .of_ok hy ?_ (hm.move _) ⟨rfl, rfl, rfl, rfl⟩ trivial
    rw [bind_eq_of_ok hraw, hdecode]
    rfl
  · have hraw : RawMachine.operand n m.raw = .error (.fault .truncated) m.raw := by
      rw [RawMachine.operand, RawMachine.get_bind, raw_pc, raw_code,
        RawMachine.faultIf_bind_of (by omega)]
      rfl
    exact .of_error hm (hshort (by omega)) (bind_eq_of_error hraw decode)

theorem operand_element {n k : Nat} (hle : m.pc + 1 + n ≤ m.code.size) (hk : k < n) :
    Memory.element (m.code.extract (m.pc + 1) (m.pc + 1 + n)) (k : Int) =
      .ok m.code[m.pc + 1 + k] := by
  rw [Memory.element_natCast (by simp only [Array.size_extract]; omega), Array.getElem_extract]

theorem mirrors_operand8 (hm : m.Sound) : Mirrors RawMachine.operand8 operand8 m Anything := by
  refine mirrors_operand hm (fun hle => ?_) fun hlt => ?_
  · have h₀ : m.code[m.pc + 1]? = some m.code[m.pc + 1] := Array.getElem?_eq_getElem (by omega)
    refine ⟨m.code[m.pc + 1].toNat, by simp only [operand8, h₀], ?_⟩
    exact RawMachine.memory_bind (operand_element hle Nat.zero_lt_one) _
  · have h₀ : m.code[m.pc + 1]? = none := Array.getElem?_eq_none (by omega)
    simp only [operand8, h₀]

theorem mirrors_operand16 (hm : m.Sound) : Mirrors RawMachine.operand16 operand16 m Anything := by
  refine mirrors_operand hm (fun hle => ?_) fun hlt => ?_
  · have h₀ : m.code[m.pc + 1]? = some m.code[m.pc + 1] := Array.getElem?_eq_getElem (by omega)
    have h₁ : m.code[m.pc + 2]? = some m.code[m.pc + 2] := Array.getElem?_eq_getElem (by omega)
    refine ⟨m.code[m.pc + 1].toNat * 256 + m.code[m.pc + 2].toNat,
      by simp only [operand16, h₀, h₁], ?_⟩
    exact (RawMachine.memory_bind (operand_element hle Nat.zero_lt_two) _).trans
      (RawMachine.memory_bind (operand_element hle Nat.one_lt_two) _)
  · have h₁ : m.code[m.pc + 2]? = none := Array.getElem?_eq_none (by omega)
    simp only [operand16, h₁]
    cases m.code[m.pc + 1]? <;> rfl

theorem mirrors_operand24 (hm : m.Sound) : Mirrors RawMachine.operand24 operand24 m Anything := by
  refine mirrors_operand hm (fun hle => ?_) fun hlt => ?_
  · have h₀ : m.code[m.pc + 1]? = some m.code[m.pc + 1] := Array.getElem?_eq_getElem (by omega)
    have h₁ : m.code[m.pc + 2]? = some m.code[m.pc + 2] := Array.getElem?_eq_getElem (by omega)
    have h₂ : m.code[m.pc + 3]? = some m.code[m.pc + 3] := Array.getElem?_eq_getElem (by omega)
    refine ⟨(m.code[m.pc + 1], m.code[m.pc + 2].toNat * 256 + m.code[m.pc + 3].toNat),
      by simp only [operand24, h₀, h₁, h₂], ?_⟩
    have hsize : (m.code.extract (m.pc + 1) (m.pc + 1 + 3)).size = 3 := by
      simp only [Array.size_extract]
      omega
    have hrest : Memory.slice (m.code.extract (m.pc + 1) (m.pc + 1 + 3)) 1
        (m.code.extract (m.pc + 1) (m.pc + 1 + 3)).size =
          .ok ((m.code.extract (m.pc + 1) (m.pc + 1 + 3)).extract 1 3) := by
      rw [hsize]
      exact Memory.slice_natCast (show 1 ≤ 3 by decide) hsize.ge
    have helement {k : Nat} (hk : k < 2) :
        Memory.element ((m.code.extract (m.pc + 1) (m.pc + 1 + 3)).extract 1 3) (k : Int) =
          .ok m.code[m.pc + 2 + k] := by
      rw [Memory.element_natCast (by simp only [Array.size_extract]; omega)]
      simp only [Array.getElem_extract]
      congr 2
      omega
    exact (RawMachine.memory_bind (operand_element hle (Nat.zero_lt_succ 2)) _).trans
      ((RawMachine.memory_bind hrest _).trans
        ((RawMachine.memory_bind (helement Nat.zero_lt_two) _).trans
          (RawMachine.memory_bind (helement Nat.one_lt_two) _)))
  · have h₂ : m.code[m.pc + 3]? = none := Array.getElem?_eq_none (by omega)
    simp only [operand24, h₂]
    cases m.code[m.pc + 1]? <;> cases m.code[m.pc + 2]? <;> rfl

theorem mirrors_constant (hm : m.Sound) (index : Nat) :
    Mirrors (RawMachine.constant index) (constant index) m Anything := by
  by_cases hin : index ≠ 0 ∧ index - 1 < m.constants.size
  · obtain ⟨hpos, hlt⟩ := hin
    have hfound : constant index m = .ok m.constants[index - 1] m := by
      simp only [constant, constantAt, if_neg hpos, Array.getElem?_eq_getElem hlt]
    have hsize : index < m.raw.pool.size := by
      rw [size_raw_pool]
      omega
    have htagged : m.raw.pool[index] = some m.constants[index - 1] := by
      simp only [raw]
      rw [Array.getElem_append_right (by simp; omega)]
      simp
    have helement : Memory.element m.raw.pool index = .ok (some m.constants[index - 1]) := by
      rw [Memory.element_natCast hsize, htagged]
    have htest : ¬ (index = 0 ∨ index ≥ m.raw.pool.size) := by omega
    refine .of_ok hfound ?_ hm (.refl m) trivial
    rw [RawMachine.constant, RawMachine.get_bind, RawMachine.faultIf_bind_of_not htest,
      RawMachine.memory_bind helement, RawMachine.faultIf_bind_of_not (by simp),
      RawMachine.memory_bind helement]
    rfl
  · have hmissing : constant index m = .error (.constant (.badIndex index)) m := by
      simp only [constant, constantAt]
      by_cases hzero : index = 0
      · simp only [if_pos hzero]
      · simp only [if_neg hzero, Array.getElem?_eq_none (show m.constants.size ≤ index - 1 by omega)]
    have htest : index = 0 ∨ index ≥ m.raw.pool.size := by
      rw [size_raw_pool]
      omega
    refine .of_error hm hmissing ?_
    rw [RawMachine.constant, RawMachine.get_bind, RawMachine.faultIf_bind_of htest]
    rfl

theorem mirrors_slotValue (hm : m.Sound) (op : UInt8) (slot : Nat) :
    Mirrors (RawMachine.slotValue op slot) (slotValue op slot) m
      fun v m' => v.Allocated m' ∧ slot < m'.locals.size := by
  by_cases hslot : slot < m.locals.size
  · have hheld : slotValue op slot m = .ok m.locals[slot] m := by
      simp only [slotValue, Array.getElem?_eq_getElem hslot]
    refine .of_ok hheld ?_ hm (.refl m) ⟨hm.stored _ (Array.getElem_mem hslot), hslot⟩
    rw [RawMachine.slotValue, RawMachine.get_bind, raw_locals,
      RawMachine.faultIf_bind_of_not (by omega), Memory.element_natCast hslot]
    rfl
  · have hmissing : slotValue op slot m = .error (.outsideLocals op slot m.locals.size) m := by
      simp only [slotValue, Array.getElem?_eq_none (Nat.le_of_not_lt hslot)]
    refine .of_error hm hmissing ?_
    rw [RawMachine.slotValue, RawMachine.get_bind, raw_locals,
      RawMachine.faultIf_bind_of (by omega)]
    rfl

theorem mirrors_setSlot {slot : Nat} {v : Value} (hm : m.Sound) (hslot : slot < m.locals.size)
    (hv : v.Allocated m) : Mirrors (RawMachine.setSlot slot v) (setSlot slot v) m Anything := by
  have hset : setSlot slot v m = .ok () { m with locals := m.locals.setIfInBounds slot v } := rfl
  refine .of_ok hset ?_ ⟨hm.height, hm.stacked, ?_⟩ ⟨rfl, rfl, rfl, by simp⟩ trivial
  · rw [RawMachine.setSlot, RawMachine.get_bind, raw_locals,
      RawMachine.memory_bind (Memory.update_natCast hslot v)]
    rfl
  · intro w hw
    rcases Array.mem_or_eq_of_mem_setIfInBounds hw with hw | rfl
    · exact hm.stored w hw
    · exact hv

theorem mirrors_jump (hm : m.Sound) (start : Nat) (offset : Int) :
    Mirrors (RawMachine.jump start offset) (jump start offset) m Anything := by
  by_cases hout : (start : Int) + offset < 0 ∨ (start : Int) + offset ≥ m.code.size
  · have hjump : jump start offset m = .error (.outsideCode (start + offset)) m := by
      simp only [jump, if_pos hout]
    refine .of_error hm hjump ?_
    rw [RawMachine.jump, RawMachine.get_bind, raw_code, RawMachine.faultIf_bind_of hout]
    rfl
  · have hjump : jump start offset m =
        .ok () { m with pc := ((start : Int) + offset).toNat } := by
      simp only [jump, if_neg hout]
    have htarget : ((((start : Int) + offset).toNat : Nat) : Int) = start + offset := by omega
    refine .of_ok hjump ?_ (hm.move _) ⟨rfl, rfl, rfl, rfl⟩ trivial
    rw [RawMachine.jump, RawMachine.get_bind, raw_code, RawMachine.faultIf_bind_of_not hout]
    simp only [raw, htarget]
    rfl

/-- The value that refers to a new scanner is pushed before the scanner is there, so the two are
taken together. -/
theorem mirrors_newScanner (hm : m.Sound) :
    Mirrors (do
        let number := (← get).scanners.size
        RawMachine.push (.scanner number)
        modify fun m => { m with scanners := m.scanners.push none })
      (do
        let number := (← get).scanners.size
        push (.scanner number)
        modify fun m => { m with scanners := m.scanners.push false }) m Anything := by
  have hnumber : m.raw.scanners.size = m.scanners.size := size_raw_scanners m
  by_cases hfull : m.maxStack ≤ m.stack.size
  · obtain ⟨hpush, hraw⟩ := push_full hfull (.scanner m.scanners.size)
    refine .of_error hm (bind_eq_of_error hpush _) ?_
    rw [RawMachine.get_bind, hnumber]
    exact bind_eq_of_error hraw _
  · obtain ⟨hpush, hraw⟩ := push_room hfull (.scanner m.scanners.size)
    -- Scanners are never given up, so what refers to one goes on doing so.
    have holder {v : Value} (hv : v.Allocated m) :
        v.Allocated { m with
          stack := m.stack.push (.scanner m.scanners.size)
          scanners := m.scanners.push false } := by
      intro number hnumber
      have := hv number hnumber
      simp only [Array.size_push]
      omega
    refine .of_ok (bind_eq_of_ok hpush _) ?_ ⟨?_, ?_, fun v hv => holder (hm.stored v hv)⟩
      ⟨rfl, rfl, rfl, rfl⟩ trivial
    · rw [RawMachine.get_bind, hnumber]
      refine (bind_eq_of_ok hraw _).trans ?_
      simp only [raw, Array.map_push]
      rfl
    · simp only [Array.size_push]
      omega
    · intro v hv
      rcases Array.mem_push.mp hv with hv | rfl
      · exact holder (hm.stacked v hv)
      · intro number hnumber
        cases hnumber
        simp

theorem mirrors_construct {number : Nat} (hm : m.Sound)
    (hnumber : (Value.scanner number).Allocated m) :
    Mirrors (do
        let raw ← get
        let scanners ← RawMachine.memory (Memory.update raw.scanners number (some ()))
        set { raw with scanners })
      (modify fun m => { m with scanners := m.scanners.setIfInBounds number true }) m
      Anything := by
  have hlt : number < m.raw.scanners.size := by
    rw [size_raw_scanners]
    exact hnumber number rfl
  have hkept {v : Value} (hv : v.Allocated m) :
      v.Allocated { m with scanners := m.scanners.setIfInBounds number true } := by
    intro k hk
    simpa only [Array.size_setIfInBounds] using hv k hk
  have hupdate : (m.scanners.map streamOf).setIfInBounds number (some ()) =
      (m.scanners.setIfInBounds number true).map streamOf := by
    rw [Array.map_setIfInBounds]
    rfl
  refine .of_ok rfl ?_ ⟨hm.height, fun v hv => hkept (hm.stacked v hv),
    fun v hv => hkept (hm.stored v hv)⟩ ⟨rfl, rfl, rfl, rfl⟩ trivial
  rw [RawMachine.get_bind, RawMachine.memory_bind (Memory.update_natCast hlt (some ()))]
  simp only [raw, hupdate]
  rfl

theorem mirrors_write (hm : m.Sound) (line : Bytes) :
    Mirrors (RawMachine.write line) (write line) m Anything := by
  have hsound (output : Output) : ({ m with output } : Machine).Sound :=
    ⟨hm.height, hm.stacked, hm.stored⟩
  simp only [Mirrors, write, RawMachine.write, RawMachine.get_bind, raw_output]
  rcases m.output.room with _ | _ | n
  · exact ⟨rfl, hsound _, ⟨rfl, rfl, rfl, rfl⟩, trivial⟩
  · exact ⟨rfl, hm, .refl m⟩
  · exact ⟨rfl, hsound _, ⟨rfl, rfl, rfl, rfl⟩, trivial⟩

theorem mirrors_readThrough {number : Nat} (hm : m.Sound)
    (hnumber : (Value.scanner number).Allocated m) (item : Input.Read α) :
    Mirrors (RawMachine.readThrough number item)
      ((do
        if (← get).scanners[number]? = some true then Pure.pure ()
        else throw (.notScanner (.scanner number)) : Action Unit) >>= fun _ => read item) m
      Anything := by
  have hlt : number < m.scanners.size := hnumber number rfl
  have hstream : Memory.element m.raw.scanners number = .ok (streamOf m.scanners[number]) := by
    rw [Memory.element_natCast (by rwa [size_raw_scanners])]
    simp [raw]
  have htaken : (do
        if (← get).scanners[number]? = some true then Pure.pure ()
        else throw (.notScanner (.scanner number)) : Action Unit) m =
      if m.scanners[number]? = some true then .ok () m
      else .error (.notScanner (.scanner number)) m := by
    change (if m.scanners[number]? = some true then _ else _ : Action Unit) m = _
    split <;> rfl
  rw [Array.getElem?_eq_getElem hlt] at htaken
  rw [RawMachine.readThrough]
  cases hready : m.scanners[number] with
  | false =>
    rw [hready] at hstream htaken
    have hunset : streamOf false = none := rfl
    refine .of_error hm (bind_eq_of_error htaken _) ?_
    rw [RawMachine.get_bind, RawMachine.memory_bind hstream, RawMachine.faultIf_bind_of hunset]
    rfl
  | true =>
    rw [hready] at hstream htaken
    have hset : ¬ streamOf true = none := nofun
    have hfollow : Memory.follow (streamOf true) = .ok () := rfl
    unfold Mirrors
    rw [bind_eq_of_ok htaken, RawMachine.get_bind, RawMachine.memory_bind hstream,
      RawMachine.faultIf_bind_of_not hset, RawMachine.memory_bind hfollow, raw_input, read]
    cases item m.input with
    | error e input => exact ⟨rfl, ⟨hm.height, hm.stacked, hm.stored⟩, ⟨rfl, rfl, rfl, rfl⟩⟩
    | ok a input => exact ⟨rfl, ⟨hm.height, hm.stacked, hm.stored⟩, ⟨rfl, rfl, rfl, rfl⟩, trivial⟩

theorem mirrors_scan (hm : m.Sound) (item : Input.Read α) :
    Mirrors (RawMachine.scan item) (do takeScanner; read item) m Anything := by
  simp only [RawMachine.scan, takeScanner, bind_assoc]
  refine (mirrors_pop hm).bind fun found m hm _ hfound => ?_
  cases found with
  | scanner number => exact mirrors_readThrough hm hfound item
  | _ => exact .fault hm _

end Machine

end ClassForge
