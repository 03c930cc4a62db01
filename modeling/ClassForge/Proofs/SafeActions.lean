import ClassForge.Proofs.RuntimeMembers

/-! What the parts of an instruction do to the stack of a running machine. Given the words they take
and the room for those they leave, they have no fault that static checks are there to rule out. -/

namespace ClassForge

/-- The faults that well-formed code cannot have. -/
def Fault.IsStructural : Fault → Prop
  | .truncated | .stackOverflow _ | .stackUnderflow | .constant _ | .outsideLocals .. |
    .outsideCode _ => True
  | _ => False

namespace Machine

variable {m : Machine}

/-- What an instruction does not change. -/
structure SameFrame (m m' : Machine) : Prop where
  code : m'.code = m.code
  constants : m'.constants = m.constants
  maxStack : m'.maxStack = m.maxStack
  locals : m'.locals.size = m.locals.size

theorem SameFrame.refl (m : Machine) : m.SameFrame m :=
  ⟨rfl, rfl, rfl, rfl⟩

theorem SameFrame.trans {p q r : Machine} (h : p.SameFrame q) (h' : q.SameFrame r) :
    p.SameFrame r :=
  ⟨h'.code.trans h.code, h'.constants.trans h.constants, h'.maxStack.trans h.maxStack,
    h'.locals.trans h.locals⟩

/-- The action has no structural fault, and what it leaves satisfies `post`. -/
def Safe {α : Type} (x : Action α) (m : Machine) (post : α → Machine → Prop) : Prop :=
  match x m with
  | .ok a m' => m.SameFrame m' ∧ post a m'
  | .error e _ => ¬ e.IsStructural

theorem Safe.bind {α β : Type} {x : Action α} {f : α → Action β} {mid : α → Machine → Prop}
    {post : β → Machine → Prop} (hx : Safe x m mid)
    (hf : ∀ a m', m.SameFrame m' → mid a m' → Safe (f a) m' post) : Safe (x >>= f) m post := by
  unfold Safe at hx ⊢
  cases hr : x m with
  | error e m' =>
    rw [bind_eq_of_error hr]
    simpa only [hr] using hx
  | ok a m' =>
    rw [bind_eq_of_ok hr]
    simp only [hr] at hx
    have hf := hf a m' hx.1 hx.2
    unfold Safe at hf
    cases hr' : f a m' with
    | error e m'' => simpa only [hr'] using hf
    | ok b m'' =>
      simp only [hr'] at hf
      exact ⟨hx.1.trans hf.1, hf.2⟩

theorem Safe.pure {α : Type} {post : α → Machine → Prop} {a : α} (h : post a m) :
    Safe (Pure.pure a) m post :=
  ⟨.refl m, h⟩

theorem Safe.throw {α : Type} {post : α → Machine → Prop} {e : Fault} (h : ¬ e.IsStructural) :
    Safe (throw e : Action α) m post :=
  h

theorem Safe.imp {α : Type} {x : Action α} {post post' : α → Machine → Prop} (hx : Safe x m post)
    (h : ∀ a m', post a m' → post' a m') : Safe x m post' := by
  unfold Safe at hx ⊢
  split at hx
  · exact ⟨hx.1, h _ _ hx.2⟩
  · exact hx

/-- The counter stays, and the stack gets the given height. -/
def Leaves {α : Type} (m : Machine) (height : Nat) (_ : α) (m' : Machine) : Prop :=
  m'.pc = m.pc ∧ m'.stack.size = height

theorem safe_push (value : Value) (h : m.stack.size < m.maxStack) :
    Safe (push value) m (m.Leaves (m.stack.size + 1)) := by
  simp only [Safe, push]
  rw [if_neg (by omega)]
  exact ⟨⟨rfl, rfl, rfl, rfl⟩, rfl, by simp⟩

theorem safe_pop (h : 0 < m.stack.size) : Safe pop m (m.Leaves (m.stack.size - 1)) := by
  have hback : m.stack.back? = some (m.stack[m.stack.size - 1]) := by
    rw [Array.back?_eq_getElem?, Array.getElem?_eq_getElem (by omega)]
  simp only [Safe, pop, hback]
  exact ⟨⟨rfl, rfl, rfl, rfl⟩, rfl, by simp⟩

theorem safe_popInt (h : 0 < m.stack.size) : Safe popInt m (m.Leaves (m.stack.size - 1)) := by
  refine (safe_pop h).bind fun value m' _ hm => ?_
  cases value with
  | int n => exact .pure hm
  | _ => exact .throw (by simp [Fault.IsStructural])

theorem safe_setSlot (slot : Nat) (value : Value) :
    Safe (setSlot slot value) m (m.Leaves m.stack.size) :=
  ⟨⟨rfl, rfl, rfl, by simp⟩, rfl, rfl⟩

theorem safe_slotValue (op : UInt8) {slot : Nat} (h : slot < m.locals.size) :
    Safe (slotValue op slot) m fun _ m' => m' = m := by
  simp only [Safe, slotValue, Array.getElem?_eq_getElem h]
  exact ⟨.refl m, trivial⟩

theorem ofByte?_localOp (op : LocalOp) : LocalOp.ofByte? op.byte = some op := by
  cases op <;> rfl

theorem safe_access {op : LocalOp} {slot : Nat} (hslot : slot < m.locals.size)
    (hpops : (Opcode.access op).pops ≤ m.stack.size)
    (hroom : m.stack.size - (Opcode.access op).pops + (Opcode.access op).pushes ≤ m.maxStack) :
    Safe (access op.byte slot) m
      (m.Leaves (m.stack.size - (Opcode.access op).pops + (Opcode.access op).pushes)) := by
  refine (safe_slotValue op.byte hslot).bind fun held m' _ hm => ?_
  subst hm
  rw [ofByte?_localOp]
  cases op with
  | iload =>
    cases held with
    | int n => exact safe_push _ (by simpa [Opcode.pops, Opcode.pushes, LocalOp.isLoad] using hroom)
    | _ => exact .throw (by simp [Fault.IsStructural])
  | aload =>
    cases held with
    | int n => exact .throw (by simp [Fault.IsStructural])
    | _ => exact safe_push _ (by simpa [Opcode.pops, Opcode.pushes, LocalOp.isLoad] using hroom)
  | istore =>
    refine (safe_popInt hpops).bind fun n m₁ _ hm₁ => ?_
    exact (safe_setSlot slot (.int n)).imp fun _ m₂ hm₂ => ⟨hm₂.1.trans hm₁.1, hm₂.2.trans hm₁.2⟩
  | astore =>
    refine (safe_pop hpops).bind fun value m₁ _ hm₁ => ?_
    cases value with
    | int n => exact .throw (by simp [Fault.IsStructural])
    | _ =>
      exact (safe_setSlot slot _).imp fun _ m₂ hm₂ => ⟨hm₂.1.trans hm₁.1, hm₂.2.trans hm₁.2⟩

theorem safe_arithmetic (op : ArithmeticOp) (hpops : 2 ≤ m.stack.size)
    (hroom : m.stack.size - 1 ≤ m.maxStack) :
    Safe (arithmetic op) m (m.Leaves (m.stack.size - 1)) := by
  refine (safe_popInt (by omega)).bind fun right m₁ hf₁ hm₁ => ?_
  refine (safe_popInt (by have := hm₁.2; omega)).bind fun left m₂ hf₂ hm₂ => ?_
  have hsize : m₂.stack.size = m.stack.size - 2 := by
    have := hm₁.2
    have := hm₂.2
    omega
  have hmax : m₂.maxStack = m.maxStack := hf₂.maxStack.trans hf₁.maxStack
  have hpush : ∀ value, Safe (push value) m₂ (m.Leaves (m.stack.size - 1)) := fun value =>
    (safe_push value (by omega)).imp fun _ m₃ hm₃ =>
      ⟨hm₃.1.trans (hm₂.1.trans hm₁.1), by have := hm₃.2; omega⟩
  cases op with
  | div =>
    dsimp only
    split
    · exact .throw (by simp [Fault.IsStructural])
    · exact hpush _
  | _ => exact hpush _

theorem safe_dup (hpops : 1 ≤ m.stack.size) (hroom : m.stack.size + 1 ≤ m.maxStack) :
    Safe (do
      let value ← pop
      push value
      push value) m (m.Leaves (m.stack.size + 1)) := by
  refine (safe_pop (by omega)).bind fun value m₁ hf₁ hm₁ => ?_
  have h₁ := hm₁.2
  have hmax₁ := hf₁.maxStack
  refine (safe_push value (by omega)).bind fun _ m₂ hf₂ hm₂ => ?_
  have h₂ := hm₂.2
  have hmax₂ := hf₂.maxStack
  exact (safe_push value (by omega)).imp fun _ m₃ hm₃ =>
    ⟨hm₃.1.trans (hm₂.1.trans hm₁.1), by have := hm₃.2; omega⟩

theorem safe_compare (relation : Relation) {taken : Action Unit} {post : Unit → Machine → Prop}
    (hpops : 2 ≤ m.stack.size)
    (htaken : ∀ m', m.SameFrame m' → m'.pc = m.pc → m'.stack.size = m.stack.size - 2 →
      Safe taken m' post ∧ post () m') :
    Safe (compare relation taken) m post := by
  refine (safe_popInt (by omega)).bind fun right m₁ hf₁ hm₁ => ?_
  refine (safe_popInt (by have := hm₁.2; omega)).bind fun left m₂ hf₂ hm₂ => ?_
  have hsize : m₂.stack.size = m.stack.size - 2 := by
    have := hm₁.2
    have := hm₂.2
    omega
  obtain ⟨hyes, hno⟩ := htaken m₂ (hf₁.trans hf₂) (hm₂.1.trans hm₁.1) hsize
  split
  · exact hyes
  · exact .pure hno

theorem Safe.bind_of_ok {α β : Type} {x : Action α} {f : α → Action β} {a : α} {m₁ : Machine}
    {post : β → Machine → Prop} (hx : x m = .ok a m₁) (hframe : m.SameFrame m₁)
    (hf : Safe (f a) m₁ post) : Safe (x >>= f) m post := by
  have hsafe : Safe x m fun b m' => b = a ∧ m' = m₁ := by
    unfold Safe
    rw [hx]
    exact ⟨hframe, rfl, rfl⟩
  refine hsafe.bind ?_
  rintro _ _ _ ⟨rfl, rfl⟩
  exact hf

theorem safe_getstatic {member : Member} {m₁ : Machine} (hoperand : fieldOperand m = .ok member m₁)
    (hframe : m.SameFrame m₁) (hroom : m₁.stack.size < m₁.maxStack) :
    Safe getstatic m (m₁.Leaves (m₁.stack.size + 1)) := by
  refine Safe.bind_of_ok hoperand hframe ?_
  split
  · exact safe_push _ hroom
  · split
    · exact safe_push _ hroom
    · exact .throw (by simp [Fault.IsStructural])

theorem safe_newObject {index : Nat} {name : Bytes} {m₁ : Machine}
    (hoperand : operand16 m = .ok index m₁) (hframe : m.SameFrame m₁)
    (hc : constantAt m.constants index = .ok (.classRef name))
    (hroom : m₁.stack.size < m₁.maxStack) :
    Safe newObject m (m₁.Leaves (m₁.stack.size + 1)) := by
  refine Safe.bind_of_ok hoperand hframe ?_
  have hconstant : constant index m₁ = .ok (.classRef name) m₁ := by
    simp only [constant, hframe.constants, hc]
  refine Safe.bind_of_ok hconstant (.refl m₁) ?_
  dsimp only
  split
  · refine Safe.bind_of_ok (a := m₁) rfl (.refl m₁) ?_
    refine (safe_push _ hroom).bind fun _ m₂ _ hm₂ => ?_
    exact ⟨⟨rfl, rfl, rfl, rfl⟩, hm₂⟩
  · exact .throw (by simp [Fault.IsStructural])

theorem safe_constructScanner (hpops : 2 ≤ m.stack.size) :
    Safe constructScanner m (m.Leaves (m.stack.size - 2)) := by
  refine (safe_pop (by omega)).bind fun argument m₁ _ hm₁ => ?_
  have h₁ := hm₁.2
  cases argument with
  | inputStream =>
    refine (safe_pop (by omega)).bind fun receiver m₂ _ hm₂ => ?_
    have h₂ := hm₂.2
    cases receiver with
    | scanner number =>
      exact ⟨⟨rfl, rfl, rfl, rfl⟩, hm₂.1.trans hm₁.1, by dsimp only; omega⟩
    | _ => exact .throw (by simp [Fault.IsStructural])
  | _ => exact .throw (by simp [Fault.IsStructural])

theorem safe_takeScanner (hpops : 1 ≤ m.stack.size) :
    Safe takeScanner m (m.Leaves (m.stack.size - 1)) := by
  refine (safe_pop (by omega)).bind fun found m₁ _ hm₁ => ?_
  cases found with
  | scanner number =>
    refine Safe.bind_of_ok (a := m₁) rfl (.refl m₁) ?_
    split
    · exact .pure hm₁
    · exact .throw (by simp [Fault.IsStructural])
  | _ => exact .throw (by simp [Fault.IsStructural])

theorem safe_read {α : Type} (item : Input.Read α) : Safe (read item) m (m.Leaves m.stack.size) := by
  simp only [Safe, read]
  split
  · rename_i h
    split at h
    · cases h
      exact ⟨⟨rfl, rfl, rfl, rfl⟩, rfl, rfl⟩
    · cases h
  · rename_i h
    split at h
    · cases h
    · cases h
      simp [Fault.IsStructural]

theorem safe_write (line : Bytes) : Safe (write line) m (m.Leaves m.stack.size) := by
  simp only [Safe, write]
  cases m.output.room with
  | none => exact ⟨⟨rfl, rfl, rfl, rfl⟩, rfl, rfl⟩
  | some n =>
    cases n with
    | zero => simp [Fault.IsStructural]
    | succ n => exact ⟨⟨rfl, rfl, rfl, rfl⟩, rfl, rfl⟩

/-- A call of println that the runtime supports takes two words; any other is refused first. -/
theorem safe_printText {descriptor : Bytes} {height : Nat}
    (hpops : ∀ type, descriptor = (Emission.println type).descriptor →
      height + 2 = m.stack.size) :
    Safe (printText descriptor) m fun text m' =>
      m.Leaves (m.stack.size - 1) text m' ∧ height + 2 = m.stack.size := by
  simp only [printText]
  split
  · next h =>
    have hsize := hpops .integer (eq_of_beq h)
    exact (safe_popInt (by omega)).bind fun n m₁ _ hm₁ => .pure ⟨hm₁, hsize⟩
  · split
    · next h =>
      have hsize := hpops .text (eq_of_beq h)
      refine (safe_pop (by omega)).bind fun value m₁ _ hm₁ => ?_
      cases value with
      | text s => exact .pure ⟨hm₁, hsize⟩
      | null => exact .pure ⟨hm₁, hsize⟩
      | _ => exact .throw (by simp [Fault.IsStructural])
    · exact .throw (by simp [Fault.IsStructural])

theorem safe_println {descriptor : Bytes} {height : Nat}
    (hpops : ∀ type, descriptor = (Emission.println type).descriptor →
      height + 2 = m.stack.size) :
    Safe (println descriptor) m (m.Leaves height) := by
  refine (safe_printText hpops).bind fun text m₁ _ htext => ?_
  obtain ⟨hm₁, hsize⟩ := htext
  have h₁ := hm₁.2
  refine (safe_pop (by omega)).bind fun receiver m₂ _ hm₂ => ?_
  have h₂ := hm₂.2
  cases receiver with
  | outputStream =>
    refine (safe_write _).imp fun _ m₃ hm₃ => ?_
    have h₃ := hm₃.2
    exact ⟨hm₃.1.trans (hm₂.1.trans hm₁.1), by omega⟩
  | _ => exact .throw (by simp [Fault.IsStructural])

theorem head?_of_methodWords {descriptor : Bytes} {words : Nat × Nat}
    (h : Descriptor.methodWords descriptor = .ok words) : descriptor.head? = some 0x28 := by
  unfold Descriptor.methodWords at h
  split at h
  · rfl
  · cases h

/-- A call of a method takes and leaves the words that its descriptor tells. -/
theorem safe_invoke {op : CallOp} {member member' : Member} {args result : Nat} {m₁ : Machine}
    (hoperand : methodOperand m = .ok member'.repaired m₁) (hframe : m.SameFrame m₁)
    (hrender : member'.render = member.render)
    (hwords : Descriptor.methodWords member.descriptor = .ok (args, result))
    (hpops : args + 1 ≤ m₁.stack.size) (hroom : m₁.stack.size - (args + 1) + result ≤ m₁.maxStack) :
    Safe (invoke op) m (m₁.Leaves (m₁.stack.size - (args + 1) + result)) := by
  have hhead := head?_of_methodWords hwords
  -- A supported method is known by its key, and the words of its descriptor are then known too.
  have hknown : ∀ {known : Member}, known.IsPlain → member'.repaired.callKey = known.callKey →
      Descriptor.methodWords known.descriptor = .ok (args, result) := fun hplain hkey =>
    hplain.eq_of_callKey hrender hkey hhead ▸ hwords
  have hread : ∀ {α : Type} {value : α → Value} {item : Input.Read α},
      args = 0 → result = 1 → Safe (do
        takeScanner
        push (value (← read item))) m₁ (m₁.Leaves (m₁.stack.size - (args + 1) + result)) := by
    intro α value item hargs hresult
    refine (safe_takeScanner (by omega)).bind fun _ m₂ hf₂ hm₂ => ?_
    refine (safe_read item).bind fun a m₃ hf₃ hm₃ => ?_
    have hsize : m₃.stack.size = m₁.stack.size - 1 := hm₃.2.trans hm₂.2
    have hmax : m₃.maxStack = m₁.maxStack := hf₃.maxStack.trans hf₂.maxStack
    exact (safe_push _ (by omega)).imp fun _ m₄ hm₄ =>
      ⟨hm₄.1.trans (hm₃.1.trans hm₂.1), by have := hm₄.2; omega⟩
  refine Safe.bind_of_ok hoperand hframe ?_
  dsimp only
  split
  · rename_i h
    simp only [Bool.and_eq_true, beq_iff_eq] at h
    have hargs : Except.ok (1, 0) = Except.ok (args, result) :=
      hknown Emission.isPlain_scannerInit h.2
    cases hargs
    exact safe_constructScanner hpops
  split
  · rename_i h
    simp only [Bool.and_eq_true, beq_iff_eq] at h
    have hprint : ∀ type, member'.repaired.descriptor = (Emission.println type).descriptor →
        (1, 0) = (args, result) := by
      intro type hd
      have hmember : member'.repaired = Emission.println type := by
        cases hm : member'.repaired
        cases type <;> simp_all [Emission.println, Emission.printStreamClass, printStreamClass]
      have hkey : member'.repaired.callKey = (Emission.println type).callKey := by rw [hmember]
      have hargs := hknown (Emission.isPlain_println type) hkey
      cases type <;> exact Except.ok.inj hargs
    refine safe_println fun type hd => ?_
    cases hprint type hd
    omega
  split
  · rename_i h
    simp only [Bool.and_eq_true, beq_iff_eq] at h
    have hargs : Except.ok (0, 1) = Except.ok (args, result) := hknown Emission.isPlain_nextInt h.2
    exact hread (by cases hargs; rfl) (by cases hargs; rfl)
  split
  · rename_i h
    simp only [Bool.and_eq_true, beq_iff_eq] at h
    have hargs : Except.ok (0, 1) = Except.ok (args, result) := hknown Emission.isPlain_nextLine h.2
    exact hread (by cases hargs; rfl) (by cases hargs; rfl)
  · exact .throw (by simp [Fault.IsStructural])

end Machine

/-- The opcodes without operands. -/
def Opcode.isBasic : Opcode → Bool
  | nop | aconstNull | iconst _ | pop | dup | arithmetic _ | returnVoid => true
  | _ => false

namespace Machine

variable {m : Machine}

/-- An opcode without operands takes and leaves its words, and the next one follows. -/
theorem safe_execute {op : Opcode} (hop : op.isBasic = true) (hreturn : op ≠ .returnVoid)
    (start : Nat) (hpops : op.pops ≤ m.stack.size)
    (hroom : m.stack.size - op.pops + op.pushes ≤ m.maxStack) :
    Safe (execute start op) m fun returned m' => returned = false ∧ m'.pc = m.pc + 1 ∧
      m'.stack.size = m.stack.size - op.pops + op.pushes := by
  have hthen : ∀ {α : Type} {x : Action α}, Safe x { m with pc := m.pc + 1 }
        (Leaves { m with pc := m.pc + 1 } (m.stack.size - op.pops + op.pushes)) →
      Safe (do advance 1; let _ ← x; return false) m fun returned m' => returned = false ∧
        m'.pc = m.pc + 1 ∧ m'.stack.size = m.stack.size - op.pops + op.pushes := by
    intro α x hx
    refine Safe.bind_of_ok (advance_eq 1 m) ⟨rfl, rfl, rfl, rfl⟩ ?_
    exact hx.bind fun _ m' _ hm' => .pure ⟨rfl, hm'⟩
  cases op with
  | nop => exact Safe.bind_of_ok (advance_eq 1 m) ⟨rfl, rfl, rfl, rfl⟩ (.pure ⟨rfl, rfl, rfl⟩)
  | aconstNull => exact hthen (safe_push _ hroom)
  | iconst n => exact hthen (safe_push _ hroom)
  | pop => exact hthen (safe_pop hpops)
  | dup =>
    have hroom' : m.stack.size + 1 ≤ m.maxStack := by
      simp only [Opcode.pops, Opcode.pushes] at hpops hroom
      omega
    have hheight : m.stack.size - Opcode.dup.pops + Opcode.dup.pushes = m.stack.size + 1 := by
      simp only [Opcode.pops, Opcode.pushes] at hpops ⊢
      omega
    rw [hheight] at hthen ⊢
    simpa only [execute, bind_assoc] using hthen (safe_dup hpops hroom')
  | arithmetic op =>
    have hheight : m.stack.size - (Opcode.arithmetic op).pops + (Opcode.arithmetic op).pushes =
        m.stack.size - 1 := by
      simp only [Opcode.pops, Opcode.pushes] at hpops ⊢
      omega
    rw [hheight] at hthen hroom ⊢
    exact hthen (safe_arithmetic op hpops hroom)
  | returnVoid => exact absurd rfl hreturn
  | _ => simp [Opcode.isBasic] at hop

end Machine

end ClassForge
