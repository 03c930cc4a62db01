import ClassForge.Proofs.EmittedCode
import ClassForge.Proofs.RuntimeMembers
import ClassForge.Proofs.SafeExecution

/-! What the entries of emitted code do in a running machine. Each entry is passed in at most one
step, so a stretch of code is passed in no more steps than it has entries. -/

namespace ClassForge

namespace Machine

variable {m m' m'' : Machine} {n n' : Nat}

/-- The machine with another counter and another stack. -/
def goes (m : Machine) (pc : Nat) (stack : Array Value) : Machine :=
  { m with pc, stack }

/-- So many steps lead from the one machine to the other. -/
inductive Runs : Nat → Machine → Machine → Prop
  | refl (m : Machine) : Runs 0 m m
  | step {n : Nat} {m m' m'' : Machine} (inside : m.pc < m.code.size)
      (first : step m = .ok false m') (rest : Runs n m' m'') : Runs (n + 1) m m''

theorem Runs.trans (h : Runs n m m') (h' : Runs n' m' m'') : Runs (n + n') m m'' := by
  induction h with
  | refl => simpa using h'
  | step inside first _ ih =>
    rw [Nat.add_right_comm]
    exact .step inside first (ih h')

/-- Steps that were taken count against the checks of a run. -/
theorem Runs.runFrom_eq (h : Runs n m m') (checks limit : Nat) :
    m.runFrom checks (n + limit) = m'.runFrom (checks + n) limit := by
  induction h generalizing checks with
  | refl => simp
  | step inside first _ ih =>
    rw [Nat.add_right_comm, runFrom, if_neg (by omega)]
    simp only [first, ih]
    congr 1
    omega

/-- A step with the fault is reached, `j - i` steps from here at the latest, and the output has been
written then. -/
def Faults (m : Machine) (i j : Nat) (fault : Fault) (output : Output) : Prop :=
  ∃ n m' m'', i + n < j ∧ Runs n m m' ∧ m'.pc < m'.code.size ∧
    step m' = .error fault m'' ∧ m''.output = output

theorem Faults.mono {i j k : Nat} {fault : Fault} {output : Output}
    (h : m.Faults i k fault output) (hj : k ≤ j) : m.Faults i j fault output := by
  obtain ⟨n, m₁, m₂, hn, hfault⟩ := h
  exact ⟨n, m₁, m₂, by omega, hfault⟩

/-- The result of an arithmetic instruction, unless it divides by zero. -/
def result? (op : ArithmeticOp) (x y : Int32) : Option Int32 :=
  match op with
  | .add => some (x + y)
  | .sub => some (x - y)
  | .mul => some (x * y)
  | .div => if y = 0 then none else some (x / y)

theorem push_eq {value : Value} (h : m.stack.size < m.maxStack) :
    push value m = .ok () (m.goes m.pc (m.stack.push value)) := by
  simp only [push, ge_iff_le, Nat.not_le.mpr h, if_false, goes]

theorem pop_eq {stack : Array Value} {value : Value} (h : m.stack = stack.push value) :
    pop m = .ok value (m.goes m.pc stack) := by
  simp [pop, h, goes]

theorem popInt_eq {stack : Array Value} {a : Int32} (h : m.stack = stack.push (.int a)) :
    popInt m = .ok a (m.goes m.pc stack) :=
  (bind_eq_of_ok (pop_eq h) _).trans rfl

theorem arithmetic_eq (op : ArithmeticOp) {stack : Array Value} {x y : Int32}
    (h : m.stack = (stack.push (.int x)).push (.int y)) :
    arithmetic op m = match result? op x y with
      | some z => push (.int z) (m.goes m.pc stack)
      | none => .error .divisionByZero (m.goes m.pc stack) := by
  have hleft : popInt (m.goes m.pc (stack.push (.int x))) = .ok x (m.goes m.pc stack) :=
    popInt_eq rfl
  refine ((bind_eq_of_ok (popInt_eq h) _).trans (bind_eq_of_ok hleft _)).trans ?_
  cases op with
  | div =>
    by_cases hzero : y = 0
    · simp only [result?, hzero, if_true]
      rfl
    · simp only [result?, hzero, if_false]
  | _ => rfl

end Machine

namespace Body

variable {b : Body} {m m' m'' : Machine} {i j k : Nat}

/-- The machine is about to run entry `k`, and the stack has the height that is known there. -/
structure At (b : Body) (k : Nat) (m : Machine) : Prop where
  loaded : b.Loaded m
  pc : m.pc = b.start k
  height : b.heights.at? k = some m.stack.size

/-- From entry `i` the machine gets to entry `j`, in no more steps than there are entries between. -/
structure Runs (b : Body) (i j : Nat) (m m' : Machine) : Prop where
  steps : ∃ n, i + n ≤ j ∧ Machine.Runs n m m'
  arrives : b.At j m'

theorem Runs.refl (h : b.At k m) : b.Runs k k m m :=
  ⟨⟨0, le_rfl, .refl m⟩, h⟩

theorem Runs.trans (h : b.Runs i k m m') (h' : b.Runs k j m' m'') : b.Runs i j m m'' := by
  obtain ⟨n, hn, hr⟩ := h.steps
  obtain ⟨n', hn', hr'⟩ := h'.steps
  exact ⟨⟨n + n', by omega, hr.trans hr'⟩, h'.arrives⟩

theorem Runs.faults {fault : Fault} {output : Output} (h : b.Runs i k m m')
    (h' : m'.Faults k j fault output) : m.Faults i j fault output := by
  obtain ⟨n, hn, hr⟩ := h.steps
  obtain ⟨n', m₁, m₂, hn', hr', hfault⟩ := h'
  exact ⟨n + n', m₁, m₂, by omega, hr.trans hr', hfault⟩

namespace At

theorem pc_lt (h : b.At k m) {instruction : Instruction}
    (hi : b.code.entries[k]? = some instruction) (hmark : instruction.isMark = false) :
    m.pc < m.code.size :=
  h.loaded.pc_lt ⟨k, instruction, hi, hmark, h.pc, h.height⟩

theorem flow (h : b.At k m) {instruction : Instruction} {pops pushes : Nat}
    (hi : b.code.entries[k]? = some instruction) (hf : instruction.flowsOn = true)
    (he : instruction.effect = .ok (pops, pushes)) :
    m.stack.size - pops + pushes ≤ m.maxStack ∧ ∀ m' : Machine, m.SameFrame m' →
      m'.pc = b.start (k + 1) → m'.stack.size = m.stack.size - pops + pushes →
      b.At (k + 1) m' := by
  obtain ⟨_, _, heffect, -, hdeep, hnext⟩ :=
    heights_following hi h.height (Code.successors_of_flowsOn hf)
  rw [he] at heffect
  cases heffect
  refine ⟨hdeep.trans h.loaded.room, fun m' hframe hpc hsize => ?_⟩
  exact ⟨h.loaded.of_sameFrame hframe, hpc, by rw [hsize]; exact hnext⟩

theorem runs (h : b.At k m) {instruction : Instruction} {pops pushes : Nat}
    (hi : b.code.entries[k]? = some instruction) (hmark : instruction.isMark = false)
    (hf : instruction.flowsOn = true) (he : instruction.effect = .ok (pops, pushes))
    (hstep : Machine.step m = .ok false m') (hframe : m.SameFrame m')
    (hpc : m'.pc = b.start (k + 1)) (hsize : m'.stack.size = m.stack.size - pops + pushes) :
    b.Runs k (k + 1) m m' :=
  ⟨⟨1, le_rfl, .step (h.pc_lt hi hmark) hstep (.refl m')⟩,
    (h.flow hi hf he).2 m' hframe hpc hsize⟩

theorem mark (h : b.At k m) {label : Label} (hi : b.code.entries[k]? = some (.mark label)) :
    b.Runs k (k + 1) m m := by
  obtain ⟨p, -, -, -, hnext, -⟩ := b.assembled.arranged.placement hi
  exact ⟨⟨0, by omega, .refl m⟩, (h.flow hi rfl rfl).2 m (.refl m) (h.pc.trans hnext.symm) rfl⟩

theorem action (h : b.At k m) {instruction : Instruction} {pops pushes : Nat}
    (hi : b.code.entries[k]? = some instruction) (hmark : instruction.isMark = false)
    (hf : instruction.flowsOn = true) (he : instruction.effect = .ok (pops, pushes))
    {x : Machine.Action Unit} {m₁ : Machine}
    (hstep : Machine.step m = (do x; return false : Machine.Action Bool) m₁)
    (hx : x m₁ = .ok () m') (hframe : m.SameFrame m') (hpc : m'.pc = b.start (k + 1))
    (hsize : m'.stack.size = m.stack.size - pops + pushes) : b.Runs k (k + 1) m m' := by
  refine h.runs hi hmark hf he ?_ hframe hpc hsize
  rw [hstep, bind_eq_of_ok hx]
  rfl

theorem pushInt (h : b.At k m) {v : Int32} (hi : b.code.entries[k]? = some (.pushInt v)) :
    b.Runs k (k + 1) m (m.goes (b.start (k + 1)) (m.stack.push (.int v))) := by
  obtain ⟨hroom, -⟩ := h.flow hi rfl rfl
  have hx : Machine.push (.int v) { m with pc := b.start (k + 1) } =
      .ok () (m.goes (b.start (k + 1)) (m.stack.push (.int v))) := Machine.push_eq hroom
  exact h.action hi rfl rfl rfl (h.loaded.step_pushInt h.pc hi) hx ⟨rfl, rfl, rfl, rfl⟩ rfl
    (by simp [Machine.goes])

theorem pushText (h : b.At k m) {text : Bytes}
    (hi : b.code.entries[k]? = some (.pushText text)) :
    b.Runs k (k + 1) m
      (m.goes (b.start (k + 1)) (m.stack.push (.text (Utf8.repair text)))) := by
  obtain ⟨hroom, -⟩ := h.flow hi rfl rfl
  have hx : Machine.push (.text (Utf8.repair text)) { m with pc := b.start (k + 1) } =
      .ok () (m.goes (b.start (k + 1)) (m.stack.push (.text (Utf8.repair text)))) :=
    Machine.push_eq hroom
  exact h.action hi rfl rfl rfl (h.loaded.step_pushText h.pc hi) hx ⟨rfl, rfl, rfl, rfl⟩ rfl
    (by simp [Machine.goes])

theorem load (h : b.At k m) {op : LocalOp} {slot : Nat} {value : Value}
    (hi : b.code.entries[k]? = some (.access op slot)) (hslot : m.locals[slot]? = some value)
    (hop : op = .iload ∧ (∃ n, value = .int n) ∨ op = .aload ∧ ∀ n, value ≠ .int n) :
    b.Runs k (k + 1) m (m.goes (b.start (k + 1)) (m.stack.push value)) := by
  have he : (Instruction.access op slot).effect = .ok (0, 1) := by
    rcases hop with ⟨rfl, -⟩ | ⟨rfl, -⟩ <;> rfl
  obtain ⟨hroom, -⟩ := h.flow hi rfl he
  have hheld : Machine.slotValue op.byte slot { m with pc := b.start (k + 1) } =
      .ok value { m with pc := b.start (k + 1) } := by
    simp only [Machine.slotValue, hslot]
  have hpush : Machine.push value { m with pc := b.start (k + 1) } =
      .ok () (m.goes (b.start (k + 1)) (m.stack.push value)) := Machine.push_eq hroom
  have hx : Machine.access op.byte slot { m with pc := b.start (k + 1) } =
      .ok () (m.goes (b.start (k + 1)) (m.stack.push value)) := by
    refine (bind_eq_of_ok hheld _).trans (Eq.trans ?_ hpush)
    rcases hop with ⟨rfl, n, rfl⟩ | ⟨rfl, hne⟩
    · rfl
    · cases value with
      | int n => exact absurd rfl (hne n)
      | _ => rfl
  exact h.action hi rfl rfl he (h.loaded.step_access h.pc hi) hx ⟨rfl, rfl, rfl, rfl⟩ rfl
    (by simp [Machine.goes])

theorem store (h : b.At k m) {op : LocalOp} {slot : Nat} {value : Value} {stack : Array Value}
    (hi : b.code.entries[k]? = some (.access op slot)) (hstack : m.stack = stack.push value)
    (hop : op = .istore ∧ (∃ n, value = .int n) ∨ op = .astore ∧ ∀ n, value ≠ .int n) :
    b.Runs k (k + 1) m { m with
      pc := b.start (k + 1)
      stack := stack
      locals := m.locals.setIfInBounds slot value } := by
  have he : (Instruction.access op slot).effect = .ok (1, 0) := by
    rcases hop with ⟨rfl, -⟩ | ⟨rfl, -⟩ <;> rfl
  have hlt : slot < m.locals.size := h.loaded.slots hi
  have hheld : Machine.slotValue op.byte slot { m with pc := b.start (k + 1) } =
      .ok (m.locals[slot]) { m with pc := b.start (k + 1) } := by
    simp only [Machine.slotValue, Array.getElem?_eq_getElem hlt]
  have hpop : Machine.pop { m with pc := b.start (k + 1) } =
      .ok value (m.goes (b.start (k + 1)) stack) := Machine.pop_eq hstack
  have hx : Machine.access op.byte slot { m with pc := b.start (k + 1) } =
      .ok () { m with
        pc := b.start (k + 1)
        stack := stack
        locals := m.locals.setIfInBounds slot value } := by
    refine (bind_eq_of_ok hheld _).trans ?_
    rcases hop with ⟨rfl, n, rfl⟩ | ⟨rfl, hne⟩
    · have hpopInt : Machine.popInt { m with pc := b.start (k + 1) } =
          .ok n (m.goes (b.start (k + 1)) stack) := Machine.popInt_eq hstack
      exact (bind_eq_of_ok hpopInt _).trans rfl
    · refine (bind_eq_of_ok hpop _).trans ?_
      cases value with
      | int n => exact absurd rfl (hne n)
      | _ => rfl
  exact h.action hi rfl rfl he (h.loaded.step_access h.pc hi) hx
    ⟨rfl, rfl, rfl, Array.size_setIfInBounds⟩ rfl (by simp [hstack])

theorem dup (h : b.At k m) {stack : Array Value} {value : Value}
    (hi : b.code.entries[k]? = some (.simple Opcode.dup.byte))
    (hstack : m.stack = stack.push value) :
    b.Runs k (k + 1) m (m.goes (b.start (k + 1)) ((stack.push value).push value)) := by
  have he : (Instruction.simple Opcode.dup.byte).effect = .ok (1, 2) := rfl
  obtain ⟨hroom, -⟩ := h.flow hi rfl he
  obtain ⟨op, hop, hstep, hnext⟩ := h.loaded.step_simple h.pc hi
  cases hop
  rw [hstack, Array.size_push] at hroom
  have hpop : Machine.pop { m with pc := m.pc + 1 } = .ok value (m.goes (m.pc + 1) stack) :=
    Machine.pop_eq hstack
  have hpush : Machine.push value (m.goes (m.pc + 1) stack) =
      .ok () (m.goes (m.pc + 1) (stack.push value)) :=
    Machine.push_eq (show stack.size < m.maxStack by omega)
  have hpush' : Machine.push value (m.goes (m.pc + 1) (stack.push value)) =
      .ok () (m.goes (m.pc + 1) ((stack.push value).push value)) :=
    Machine.push_eq (show (stack.push value).size < m.maxStack by simp; omega)
  refine h.runs hi rfl rfl he ?_ ⟨rfl, rfl, rfl, rfl⟩ rfl (by simp [Machine.goes, hstack])
  rw [hstep, hnext]
  refine (bind_eq_of_ok (Machine.advance_eq 1 m) _).trans ?_
  refine (bind_eq_of_ok hpop _).trans ?_
  refine (bind_eq_of_ok hpush _).trans ?_
  exact (bind_eq_of_ok hpush' _).trans rfl

/-- An arithmetic instruction has a result, or it divides by zero. -/
theorem arithmetic (h : b.At k m) {op : ArithmeticOp} {stack : Array Value} {x y : Int32}
    (hi : b.code.entries[k]? = some (.simple (Opcode.arithmetic op).byte))
    (hstack : m.stack = (stack.push (.int x)).push (.int y)) :
    match Machine.result? op x y with
    | some z => b.Runs k (k + 1) m (m.goes (b.start (k + 1)) (stack.push (.int z)))
    | none => m.Faults k (k + 1) .divisionByZero m.output := by
  have he : (Instruction.simple (Opcode.arithmetic op).byte).effect = .ok (2, 1) := by
    cases op <;> rfl
  have hf : (Instruction.simple (Opcode.arithmetic op).byte).flowsOn = true := by
    cases op <;> rfl
  obtain ⟨hroom, -⟩ := h.flow hi hf he
  obtain ⟨op', hop, hstep, hnext⟩ := h.loaded.step_simple h.pc hi
  rw [Opcode.ofByte?_byte, Option.some.injEq] at hop
  subst hop
  simp only [hstack, Array.size_push] at hroom
  have hadvance : Machine.step m =
      (do Machine.arithmetic op; return false : Machine.Action Bool) { m with pc := m.pc + 1 } := by
    rw [hstep]
    exact bind_eq_of_ok (Machine.advance_eq 1 m) _
  have hresult := Machine.arithmetic_eq (m := { m with pc := m.pc + 1 }) op hstack
  cases hz : Machine.result? op x y with
  | some z =>
    simp only [hz] at hresult
    -- Both operands have been taken, so there is room for the result.
    have hpush : Machine.push (.int z) (m.goes (m.pc + 1) stack) =
        .ok () (m.goes (m.pc + 1) (stack.push (.int z))) :=
      Machine.push_eq (show stack.size < m.maxStack by omega)
    rw [hnext]
    exact h.action hi rfl hf he hadvance (hresult.trans hpush) ⟨rfl, rfl, rfl, rfl⟩ hnext.symm
      (by simp [Machine.goes, hstack])
  | none =>
    simp only [hz] at hresult
    exact ⟨0, m, _, by omega, .refl m, h.pc_lt hi rfl,
      hadvance.trans (bind_eq_of_error hresult _), rfl⟩

theorem getstatic (h : b.At k m) {member : Member} {value : Value}
    (hi : b.code.entries[k]? = some (.field Opcode.getstatic.byte member))
    (hvalue : member = Emission.systemOut ∧ value = .outputStream ∨
      member = Emission.systemIn ∧ value = .inputStream) :
    b.Runs k (k + 1) m (m.goes (b.start (k + 1)) (m.stack.push value)) := by
  have he : (Instruction.field Opcode.getstatic.byte member).effect = .ok (0, 1) := by
    rcases hvalue with ⟨rfl, -⟩ | ⟨rfl, -⟩ <;> rfl
  obtain ⟨hroom, -⟩ := h.flow hi rfl he
  obtain ⟨member', hrender, hstep, hoperand⟩ := h.loaded.step_getstatic h.pc hi
  have hmember : member'.repaired = member := by
    rcases hvalue with ⟨rfl, -⟩ | ⟨rfl, -⟩
    · rw [Member.eq_of_render hrender (by decide) (by decide)]
      exact Member.repaired_of_isAscii (by decide)
    · rw [Member.eq_of_render hrender (by decide) (by decide)]
      exact Member.repaired_of_isAscii (by decide)
  rw [hmember] at hoperand
  have hpush : Machine.push value { m with pc := b.start (k + 1) } =
      .ok () (m.goes (b.start (k + 1)) (m.stack.push value)) := Machine.push_eq hroom
  refine h.action hi rfl rfl he hstep ((bind_eq_of_ok hoperand _).trans (Eq.trans ?_ hpush))
    ⟨rfl, rfl, rfl, rfl⟩ rfl (by simp [Machine.goes])
  rcases hvalue with ⟨rfl, rfl⟩ | ⟨rfl, rfl⟩ <;> rfl

theorem goto (h : b.At k m) {label : Label} (hi : b.code.entries[k]? = some (.jump .always label))
    (ht : b.code.place? label = some j) (hj : k < j) :
    b.Runs k j m (m.goes (b.start j) m.stack) := by
  obtain ⟨t, ht', hstep⟩ := h.loaded.step_goto h.pc hi
  rw [ht] at ht'
  cases ht'
  obtain ⟨_, _, next, heffect, -, -, hnext, hheights⟩ := heights_at hi h.height
  cases heffect
  cases Code.successors_goto hnext ht
  refine ⟨⟨1, hj, .step (h.pc_lt hi rfl) hstep (.refl _)⟩, ?_⟩
  exact ⟨h.loaded.of_sameFrame ⟨rfl, rfl, rfl, rfl⟩, rfl, hheights j (by simp)⟩

/-- A branch goes to its label if the relation holds, and to the next entry otherwise. -/
theorem branch (h : b.At k m) {relation : Relation} {label : Label} {stack : Array Value}
    {x y : Int32} (hi : b.code.entries[k]? = some (.jump (.when relation) label))
    (ht : b.code.place? label = some j) (hj : k < j)
    (hstack : m.stack = (stack.push (.int x)).push (.int y)) :
    if relation.holds x y then b.Runs k j m (m.goes (b.start j) stack)
    else b.Runs k (k + 1) m (m.goes (b.start (k + 1)) stack) := by
  obtain ⟨t, taken, ht', hstep, htaken⟩ := h.loaded.step_branch h.pc hi
  rw [ht] at ht'
  cases ht'
  obtain ⟨_, _, next, heffect, -, -, hnext, hheights⟩ := heights_at hi h.height
  cases heffect
  cases Code.successors_branch hnext ht
  have hright : Machine.popInt { m with pc := b.start (k + 1) } =
      .ok y (m.goes (b.start (k + 1)) (stack.push (.int x))) := Machine.popInt_eq hstack
  have hleft : Machine.popInt (m.goes (b.start (k + 1)) (stack.push (.int x))) =
      .ok x (m.goes (b.start (k + 1)) stack) := Machine.popInt_eq rfl
  have hcompare : Machine.compare relation taken { m with pc := b.start (k + 1) } =
      (if relation.holds x y then taken else pure ()) (m.goes (b.start (k + 1)) stack) :=
    (bind_eq_of_ok hright _).trans (bind_eq_of_ok hleft _)
  have hat (l : Nat) (hl : l ∈ [j, k + 1]) : b.At l (m.goes (b.start l) stack) := by
    refine ⟨h.loaded.of_sameFrame ⟨rfl, rfl, rfl, rfl⟩, rfl, ?_⟩
    rw [hheights l hl, hstack]
    simp only [Array.size_push, Machine.goes]
    rfl
  have hpc := h.pc_lt hi rfl
  split
  · next hholds =>
    simp only [hholds, if_true, htaken (m.goes (b.start (k + 1)) stack) rfl] at hcompare
    exact ⟨⟨1, hj, .step hpc (hstep.trans (bind_eq_of_ok hcompare _)) (.refl _)⟩,
      hat j (by simp)⟩
  · next hholds =>
    simp only [hholds] at hcompare
    exact ⟨⟨1, le_rfl, .step hpc (hstep.trans (bind_eq_of_ok hcompare _)) (.refl _)⟩,
      hat (k + 1) (by simp)⟩

end At

end Body

end ClassForge
