import ClassForge.Proofs.EntrySteps
import ClassForge.Proofs.Meaning

/-! What the calls of the runtime do in a running machine: lines are printed, and a scanner is made
and reads from the input. -/

namespace ClassForge

/-- How a value is held by a machine. -/
def Datum.value : Datum → Value
  | number n => .int n
  | text s => .text s

theorem Meaning.type_of_next {type : VarType} {input rest : Input} {d : Datum}
    (h : Meaning.next type input = .ok d rest) : d.type = type := by
  cases type with
  | integer =>
    obtain ⟨n, _, -, h⟩ := ok_of_bind_eq_ok h
    cases h
    rfl
  | text =>
    obtain ⟨s, _, -, h⟩ := ok_of_bind_eq_ok h
    cases h
    rfl

namespace Machine

variable {m : Machine} {stack : Array Value}

theorem write_eq {line : Bytes} (h : m.output.room = none) :
    write line m = .ok () { m with output := ⟨m.output.lines.push line, none⟩ } := by
  simp only [write, h]

theorem println_eq {d : Datum} (hstack : m.stack = (stack.push .outputStream).push d.value)
    (hroom : m.output.room = none) :
    println (Emission.println d.type).descriptor m = .ok () { m with
      stack := stack
      output := ⟨m.output.lines.push (d.render ++ "\n"), none⟩ } := by
  have htext : printText (Emission.println d.type).descriptor m =
      .ok d.render (m.goes m.pc (stack.push .outputStream)) := by
    cases d with
    | number n => exact (bind_eq_of_ok (popInt_eq hstack) _).trans rfl
    | text s => exact (bind_eq_of_ok (pop_eq hstack) _).trans rfl
  have hpop : pop (m.goes m.pc (stack.push .outputStream)) = .ok .outputStream (m.goes m.pc stack) :=
    pop_eq rfl
  have hwrite : write (d.render ++ "\n") (m.goes m.pc stack) = .ok () _ := write_eq hroom
  exact ((bind_eq_of_ok htext _).trans (bind_eq_of_ok hpop _)).trans hwrite

theorem takeScanner_eq {number : Nat} (hstack : m.stack = stack.push (.scanner number))
    (hnumber : m.scanners[number]? = some true) :
    takeScanner m = .ok () (m.goes m.pc stack) := by
  refine (bind_eq_of_ok (pop_eq hstack) _).trans ?_
  have hget : (get : Action Machine) (m.goes m.pc stack) = .ok (m.goes m.pc stack) _ := rfl
  refine (bind_eq_of_ok hget _).trans ?_
  have : (m.goes m.pc stack).scanners[number]? = some true := hnumber
  simp only [this, if_true]
  rfl

theorem readItem_eq {α : Type} (item : Input.Read α) (value : α → Value) {number : Nat}
    (hstack : m.stack = stack.push (.scanner number))
    (hnumber : m.scanners[number]? = some true) (hroom : stack.size < m.maxStack) :
    (do takeScanner; push (value (← read item)) : Action Unit) m = match item m.input with
      | .ok a input => .ok () { m with stack := stack.push (value a), input }
      | .error e input => .error (.input e) { m with stack, input } := by
  refine (bind_eq_of_ok (takeScanner_eq hstack hnumber) _).trans ?_
  cases hitem : item m.input with
  | ok a input =>
    have hread : read item (m.goes m.pc stack) = .ok a { m with stack, input } := by
      simp only [read, goes, hitem]
    exact (bind_eq_of_ok hread _).trans (push_eq hroom)
  | error e input =>
    have hread : read item (m.goes m.pc stack) = .error (.input e) { m with stack, input } := by
      simp only [read, goes, hitem]
    exact bind_eq_of_error hread _

theorem invoke_next_eq {type : VarType} {pc number : Nat}
    (hmember : methodOperand m = .ok (Emission.nextOf type) { m with pc })
    (hstack : m.stack = stack.push (.scanner number)) (hnumber : m.scanners[number]? = some true)
    (hroom : stack.size < m.maxStack) :
    invoke .virtual m = match Meaning.next type m.input with
      | .ok d input => .ok () { m with pc, stack := stack.push d.value, input }
      | .error e input => .error (.input e) { m with pc, stack, input } := by
  cases type with
  | integer =>
    have hread := readItem_eq (m := { m with pc }) Input.nextInt .int hstack hnumber hroom
    refine (bind_eq_of_ok hmember _).trans (hread.trans ?_)
    cases hnext : Input.nextInt m.input with
    | ok n input => rw [Meaning.next, bind_eq_of_ok hnext]; rfl
    | error e input => rw [Meaning.next, bind_eq_of_error hnext]
  | text =>
    have hread := readItem_eq (m := { m with pc }) Input.nextLine .text hstack hnumber hroom
    refine (bind_eq_of_ok hmember _).trans (hread.trans ?_)
    cases hnext : Input.nextLine m.input with
    | ok s input => rw [Meaning.next, bind_eq_of_ok hnext]; rfl
    | error e input => rw [Meaning.next, bind_eq_of_error hnext]

theorem constructScanner_eq {number : Nat}
    (hstack : m.stack = (stack.push (.scanner number)).push .inputStream) :
    constructScanner m = .ok () { m with
      stack := stack
      scanners := m.scanners.setIfInBounds number true } := by
  have hpop : pop (m.goes m.pc (stack.push (.scanner number))) =
      .ok (.scanner number) (m.goes m.pc stack) := pop_eq rfl
  exact ((bind_eq_of_ok (pop_eq hstack) _).trans (bind_eq_of_ok hpop _)).trans rfl

end Machine

namespace Body.At

variable {b : Body} {m : Machine} {k : Nat} {stack : Array Value}

theorem loadOf (h : b.At k m) {v : Variable} {d : Datum}
    (hi : b.code.entries[k]? = some (Emission.loadOf v)) (ht : d.type = v.type)
    (hslot : m.locals[v.slot]? = some d.value) :
    b.Runs k (k + 1) m (m.goes (b.start (k + 1)) (m.stack.push d.value)) := by
  simp only [Emission.loadOf, ← ht] at hi
  cases d with
  | number n => exact h.load hi hslot (.inl ⟨rfl, n, rfl⟩)
  | text s => exact h.load hi hslot (.inr ⟨rfl, by simp [Datum.value]⟩)

theorem storeOf (h : b.At k m) {v : Variable} {d : Datum}
    (hi : b.code.entries[k]? = some (Emission.storeOf v)) (ht : d.type = v.type)
    (hstack : m.stack = stack.push d.value) :
    b.Runs k (k + 1) m { m with
      pc := b.start (k + 1)
      stack := stack
      locals := m.locals.setIfInBounds v.slot d.value } := by
  simp only [Emission.storeOf, ← ht] at hi
  cases d with
  | number n => exact h.store hi hstack (.inl ⟨rfl, n, rfl⟩)
  | text s => exact h.store hi hstack (.inr ⟨rfl, by simp [Datum.value]⟩)

/-- A call of a method of the runtime finds that method. -/
theorem member_eq (h : b.At k m) {op : CallOp} {member : Member} (hp : member.IsPlain)
    (hi : b.code.entries[k]? = some (.invoke (Opcode.invoke op).byte member)) :
    Machine.step m = Machine.execute m.pc (.invoke op) m ∧
      Machine.methodOperand m = .ok member { m with pc := b.start (k + 1) } := by
  obtain ⟨member', hrender, hstep, hoperand⟩ := h.loaded.step_invoke h.pc hi
  rw [hp.eq_of_render hrender, Member.repaired_of_isAscii hp.ascii] at hoperand
  exact ⟨hstep, hoperand⟩

theorem println (h : b.At k m) {d : Datum}
    (hi : b.code.entries[k]? =
      some (.invoke (Opcode.invoke .virtual).byte (Emission.println d.type)))
    (hstack : m.stack = (stack.push .outputStream).push d.value) (hroom : m.output.room = none) :
    b.Runs k (k + 1) m { m with
      pc := b.start (k + 1)
      stack := stack
      output := ⟨m.output.lines.push (d.render ++ "\n"), none⟩ } := by
  obtain ⟨hstep, hoperand⟩ := h.member_eq (Emission.isPlain_println d.type) hi
  have hcall : Machine.invoke .virtual m = .ok () { m with
      pc := b.start (k + 1)
      stack := stack
      output := ⟨m.output.lines.push (d.render ++ "\n"), none⟩ } := by
    refine (bind_eq_of_ok hoperand _).trans ?_
    have hprint := Machine.println_eq (m := { m with pc := b.start (k + 1) }) hstack hroom
    cases d <;> exact hprint
  have he : (Instruction.invoke (Opcode.invoke .virtual).byte (Emission.println d.type)).effect =
      .ok (2, 0) := by
    cases d <;> rfl
  exact h.action hi rfl rfl he hstep hcall ⟨rfl, rfl, rfl, rfl⟩ rfl (by simp [hstack])

/-- A read takes an item from the input, or fails as the input does. -/
theorem next (h : b.At k m) {type : VarType} {number : Nat}
    {taken : EStateM.Result InputError Input Datum} (htaken : Meaning.next type m.input = taken)
    (hi : b.code.entries[k]? =
      some (.invoke (Opcode.invoke .virtual).byte (Emission.nextOf type)))
    (hstack : m.stack = stack.push (.scanner number))
    (hnumber : m.scanners[number]? = some true) :
    match taken with
    | .ok d input => d.type = type ∧ b.Runs k (k + 1) m { m with
        pc := b.start (k + 1)
        stack := stack.push d.value
        input }
    | .error e _ => m.Faults k (k + 1) (.input e) m.output := by
  have hplain : (Emission.nextOf type).IsPlain := by
    cases type
    · exact Emission.isPlain_nextInt
    · exact Emission.isPlain_nextLine
  have he : (Instruction.invoke (Opcode.invoke .virtual).byte (Emission.nextOf type)).effect =
      .ok (1, 1) := by
    cases type <;> rfl
  obtain ⟨hroom, -⟩ := h.flow hi rfl he
  simp only [hstack, Array.size_push] at hroom
  obtain ⟨hstep, hoperand⟩ := h.member_eq hplain hi
  have hcall := Machine.invoke_next_eq hoperand hstack hnumber (by omega)
  rw [htaken] at hcall
  cases taken with
  | ok d input =>
    refine ⟨Meaning.type_of_next htaken, ?_⟩
    exact h.action hi rfl rfl he hstep hcall ⟨rfl, rfl, rfl, rfl⟩ rfl (by simp [hstack])
  | error e input =>
    exact ⟨0, m, _, by omega, .refl m, h.pc_lt hi rfl,
      hstep.trans (bind_eq_of_error hcall _), rfl⟩

theorem newScanner (h : b.At k m)
    (hi : b.code.entries[k]? = some (.type Opcode.new.byte Emission.scannerClass)) :
    b.Runs k (k + 1) m { m with
      pc := b.start (k + 1)
      stack := m.stack.push (.scanner m.scanners.size)
      scanners := m.scanners.push false } := by
  have he : (Instruction.type Opcode.new.byte Emission.scannerClass).effect = .ok (0, 1) := rfl
  obtain ⟨hroom, -⟩ := h.flow hi rfl he
  obtain ⟨index, hstep, hoperand, hclass⟩ := h.loaded.step_new h.pc hi
  rw [Utf8.repair_of_isAscii (by decide)] at hclass
  have hconstant : Machine.constant index { m with pc := b.start (k + 1) } =
      .ok (.classRef Emission.scannerClass) { m with pc := b.start (k + 1) } := by
    simp only [Machine.constant, hclass]
  have hpush : Machine.push (.scanner m.scanners.size) { m with pc := b.start (k + 1) } =
      .ok () (m.goes (b.start (k + 1)) (m.stack.push (.scanner m.scanners.size))) :=
    Machine.push_eq hroom
  have hnew : Machine.newObject m = .ok () { m with
      pc := b.start (k + 1)
      stack := m.stack.push (.scanner m.scanners.size)
      scanners := m.scanners.push false } := by
    refine (bind_eq_of_ok hoperand _).trans ((bind_eq_of_ok hconstant _).trans ?_)
    exact (bind_eq_of_ok hpush _).trans rfl
  exact h.action hi rfl rfl he hstep hnew ⟨rfl, rfl, rfl, rfl⟩ rfl (by simp)

theorem scannerInit (h : b.At k m) {number : Nat}
    (hi : b.code.entries[k]? =
      some (.invoke (Opcode.invoke .special).byte Emission.scannerInit))
    (hstack : m.stack = (stack.push (.scanner number)).push .inputStream) :
    b.Runs k (k + 1) m { m with
      pc := b.start (k + 1)
      stack := stack
      scanners := m.scanners.setIfInBounds number true } := by
  have he : (Instruction.invoke (Opcode.invoke .special).byte Emission.scannerInit).effect =
      .ok (2, 0) := rfl
  obtain ⟨hstep, hoperand⟩ := h.member_eq Emission.isPlain_scannerInit hi
  have hconstruct := Machine.constructScanner_eq (m := { m with pc := b.start (k + 1) }) hstack
  have hcall : Machine.invoke .special m = .ok () { m with
      pc := b.start (k + 1)
      stack := stack
      scanners := m.scanners.setIfInBounds number true } :=
    (bind_eq_of_ok hoperand _).trans hconstruct
  exact h.action hi rfl rfl he hstep hcall ⟨rfl, rfl, rfl, rfl⟩ rfl (by simp [hstack])

end Body.At

end ClassForge
