import ClassForge.Proofs.RuntimeSteps
import ClassForge.Proofs.StackBalance
import ClassForge.Proofs.TypeChecking

/-! The code of an expression computes its value. Where the value cannot be computed, the machine
fails for the same reason. -/

namespace ClassForge

/-- The fault of a machine where a run stops. -/
def Stop.fault? : Stop → Option Fault
  | divisionByZero => some .divisionByZero
  | input cause => some (.input cause)
  | stuck => none

namespace Meaning

variable {op : Bytes} {x y : Int32}

theorem arithmetic_eq {op' : ArithmeticOp} (h : Emission.arithmeticOp? op = some op') :
    arithmetic op x y = match Machine.result? op' x y with
      | some z => .ok z
      | none => .error .divisionByZero := by
  have hcases : op = ("+" : Bytes) ∧ op' = .add ∨ op = ("-" : Bytes) ∧ op' = .sub ∨
      op = ("*" : Bytes) ∧ op' = .mul ∨ op = ("/" : Bytes) ∧ op' = .div := by
    simp only [Emission.arithmeticOp?, beq_iff_eq] at h
    grind
  rcases hcases with ⟨rfl, rfl⟩ | ⟨rfl, rfl⟩ | ⟨rfl, rfl⟩ | ⟨rfl, rfl⟩
  · change Except.ok (Int32.ofInt (x.toInt + y.toInt)) = .ok (x + y)
    rw [Int32.ofInt_add, Int32.ofInt_toInt, Int32.ofInt_toInt]
  · change Except.ok (Int32.ofInt (x.toInt - y.toInt)) = .ok (x - y)
    rw [Int32.ofInt_sub, Int32.ofInt_toInt, Int32.ofInt_toInt]
  · change Except.ok (Int32.ofInt (x.toInt * y.toInt)) = .ok (x * y)
    rw [Int32.ofInt_mul, Int32.ofInt_toInt, Int32.ofInt_toInt]
  · have hquotient : Int32.ofInt (x.toInt.tdiv y.toInt) = x / y := by
      rw [Int32.ofInt_tdiv x.minValue_le_toInt x.toInt_le y.minValue_le_toInt y.toInt_le,
        Int32.ofInt_toInt, Int32.ofInt_toInt]
    change (if y = 0 then _ else Except.ok (Int32.ofInt (x.toInt.tdiv y.toInt))) = _
    simp only [hquotient, Machine.result?]
    split <;> rfl

theorem holds_eq {relation : Relation} (h : Emission.relation? op = some relation) :
    holds op x y = .ok (relation.holds x y) := by
  have hcases : op = ("GT" : Bytes) ∧ relation = .gt ∨ op = ("LT" : Bytes) ∧ relation = .lt ∨
      op = ("EQ" : Bytes) ∧ relation = .eq ∨ op = ("NEQ" : Bytes) ∧ relation = .ne := by
    simp only [Emission.relation?, beq_iff_eq] at h
    grind
  rcases hcases with ⟨rfl, rfl⟩ | ⟨rfl, rfl⟩ | ⟨rfl, rfl⟩ | ⟨rfl, rfl⟩
  · change Except.ok (decide (y.toInt < x.toInt)) = .ok (decide (y < x))
    simp only [Int32.lt_iff_toInt_lt]
  · change Except.ok (decide (x.toInt < y.toInt)) = .ok (decide (x < y))
    simp only [Int32.lt_iff_toInt_lt]
  · change Except.ok (decide (x.toInt = y.toInt)) = .ok (x == y)
    simp only [Int32.toInt_inj, beq_eq_decide]
  · change Except.ok (decide (x.toInt ≠ y.toInt)) = .ok (x != y)
    simp only [ne_eq, Int32.toInt_inj, decide_not, bne, beq_eq_decide]

theorem literal_eq {digits : Bytes} (h : literalValue digits = .ok x) : literal digits = .ok x := by
  simp only [literalValue] at h
  simp only [literal]
  split at h <;> simp_all

end Meaning

/-- The slots hold the values of the variables. -/
structure SymbolTable.Represents (table : SymbolTable) (values : Meaning.Values)
    (locals : Array Value) : Prop where
  declared : ∀ {name : Bytes} {v : Variable}, table.lookup name = .ok v →
    ∃ d, values name = some d ∧ d.type = v.type ∧ locals[v.slot]? = some d.value
  undeclared : ∀ {name : Bytes} {e : ProgramError}, table.lookup name = .error e →
    values name = none

namespace Body

variable {b : Body} {m : Machine} {i j k : Nat} {stack : Array Value} {type : VarType}

/-- Entries `i` to `j` leave a value of the type on the stack, or fail where there is no value. -/
def Computes (b : Body) (i j : Nat) (m : Machine) (stack : Array Value) (type : VarType) :
    Except Stop Datum → Prop
  | .ok d => d.type = type ∧ b.Runs i j m (m.goes (b.start j) (stack.push d.value))
  | .error stop => ∃ fault, stop.fault? = some fault ∧ m.Faults i j fault m.output

theorem Computes.bind {x : Except Stop Datum} {f : Int32 → Except Stop Datum}
    {stack' : Array Value} (hx : b.Computes i k m stack .integer x) (hkj : k ≤ j)
    (hf : ∀ n, let m' := m.goes (b.start k) (stack.push (.int n))
      b.At k m' → b.Computes k j m' stack' type (f n)) :
    b.Computes i j m stack' type (x >>= fun d => d.toNumber >>= f) := by
  cases x with
  | error stop =>
    obtain ⟨fault, hfault, hfaults⟩ := hx
    exact ⟨fault, hfault, hfaults.mono hkj⟩
  | ok d =>
    cases d with
    | text s => cases hx.1
    | number n =>
      obtain ⟨-, hruns⟩ := hx
      have hrest := hf n hruns.arrives
      change b.Computes i j m stack' type (f n)
      cases hn : f n with
      | ok d =>
        rw [hn] at hrest
        exact ⟨hrest.1, hruns.trans hrest.2⟩
      | error stop =>
        rw [hn] at hrest
        obtain ⟨fault, hfault, hfaults⟩ := hrest
        exact ⟨fault, hfault, hruns.faults hfaults⟩

end Body

namespace Code.Forks

variable {b : Body} {m : Machine} {i j k : Nat} {stack : Array Value} {relation : Relation}

/-- A fork leads to its second part if the relation holds, and to its first part otherwise. -/
theorem runs (hf : b.code.Forks relation i k j) (hik : i < k) (h : b.At i m) {x y : Int32}
    (hstack : m.stack = (stack.push (.int x)).push (.int y)) :
    let k' := if relation.holds x y then k + 2 else i + 1
    b.Runs i k' m (m.goes (b.start k') stack) := by
  obtain ⟨holds, done, hjump, hplace, -, hmark, -, -⟩ := hf
  have hbranch := h.branch hjump hplace (by omega) hstack
  cases hholds : relation.holds x y with
  | true =>
    simp only [hholds, if_true] at hbranch
    have hpass := hbranch.arrives.mark hmark
    have hstart : b.start (k + 1) = b.start (k + 2) := hpass.arrives.pc
    rw [hstart] at hbranch hpass
    exact hbranch.trans hpass
  | false =>
    simp only [hholds] at hbranch
    exact hbranch

theorem runs_goto (hf : b.code.Forks relation i k j) (hkj : k < j) (h : b.At k m) :
    b.Runs k (j + 1) m (m.goes (b.start (j + 1)) m.stack) := by
  obtain ⟨holds, done, -, -, hgoto, -, hplace, hmark⟩ := hf
  have hjump := h.goto hgoto hplace hkj
  have hpass := hjump.arrives.mark hmark
  have hstart : b.start j = b.start (j + 1) := hpass.arrives.pc
  rw [hstart] at hjump hpass
  exact hjump.trans hpass

theorem runs_mark (hf : b.code.Forks relation i k j) (h : b.At j m) :
    b.Runs j (j + 1) m (m.goes (b.start (j + 1)) m.stack) := by
  obtain ⟨holds, done, -, -, -, -, -, hmark⟩ := hf
  have hpass := h.mark hmark
  rw [← hpass.arrives.pc]
  exact hpass

end Code.Forks

namespace Emission

variable {b : Body} {m : Machine} {i j k : Nat} {table : SymbolTable} {values : Meaning.Values}

/-- A relation leaves 1 on the stack if it holds, and 0 otherwise. -/
theorem relationValue_runs {relation : Relation} (hf : b.code.Forks relation k (k + 2) (k + 5))
    (hzero : b.code.entries[k + 1]? = some (.pushInt 0))
    (hone : b.code.entries[k + 4]? = some (.pushInt 1)) (h : b.At k m) {x y : Int32}
    {stack : Array Value} (hstack : m.stack = (stack.push (.int x)).push (.int y)) :
    b.Runs k (k + 6) m (m.goes (b.start (k + 6))
      (stack.push (.int (if relation.holds x y then 1 else 0)))) := by
  have hfork := hf.runs (by omega) h hstack
  cases hholds : relation.holds x y with
  | true =>
    simp only [hholds, if_true] at hfork ⊢
    have hpush := hfork.arrives.pushInt hone
    exact (hfork.trans hpush).trans (hf.runs_mark hpush.arrives)
  | false =>
    simp only [hholds] at hfork ⊢
    have hpush := hfork.arrives.pushInt hzero
    exact (hfork.trans hpush).trans (hf.runs_goto (by omega) hpush.arrives)

/-- The code of an expression computes its value. -/
theorem ExprAt.computes {e : Expr} {type : VarType} (hat : ExprAt b.code table e i j)
    (ht : e.typeIn table = .ok type) (hr : table.Represents values m.locals) (h : b.At i m) :
    b.Computes i j m m.stack type (Meaning.eval values e) := by
  induction e generalizing i j m type with
  | int digits =>
    obtain ⟨n, hn, hpush, rfl⟩ := hat
    cases ht
    simp only [Meaning.eval, Meaning.literal_eq hn]
    exact ⟨rfl, h.pushInt hpush⟩
  | text quoted =>
    obtain ⟨hpush, rfl⟩ := hat
    cases ht
    exact ⟨rfl, h.pushText hpush⟩
  | var name =>
    obtain ⟨v, hv, hload, rfl⟩ := hat
    obtain ⟨d, hd, htype, hslot⟩ := hr.declared hv
    obtain ⟨w, hw, ht⟩ := except_bind_eq_ok.mp ht
    rw [hv] at hw
    cases hw
    cases ht
    simp only [Meaning.eval, Meaning.valueOf, hd]
    exact ⟨htype, h.loadOf hload htype hslot⟩
  | arithmetic op left right ihl ihr =>
    obtain ⟨op', k, k', hop, hleft, hright, hi, rfl⟩ := hat
    obtain ⟨htl, htr, rfl⟩ := typeIn_operation ht
    refine (ihl hleft htl hr h).bind (by have := hright.lt; omega) fun x hx => ?_
    -- The second operand is computed on top of the first one.
    have hsecond := ihr (m := m.goes (b.start k) (m.stack.push (.int x))) hright htr hr hx
    refine hsecond.bind (Nat.le_add_right k' 1) fun y hy => ?_
    have hresult := hy.arithmetic hi rfl
    rw [Meaning.arithmetic_eq hop]
    cases hz : Machine.result? op' x y with
    | some z =>
      rw [hz] at hresult
      exact ⟨rfl, hresult⟩
    | none =>
      rw [hz] at hresult
      exact ⟨_, rfl, hresult⟩
  | comparison op left right ihl ihr =>
    obtain ⟨relation, k, k', hop, hleft, hright, hfork, hzero, hone, rfl⟩ := hat
    obtain ⟨htl, htr, rfl⟩ := typeIn_operation ht
    refine (ihl hleft htl hr h).bind (by have := hright.lt; omega) fun x hx => ?_
    have hsecond := ihr (m := m.goes (b.start k) (m.stack.push (.int x))) hright htr hr hx
    refine hsecond.bind (Nat.le_add_right k' 6) fun y hy => ?_
    rw [Meaning.holds_eq hop]
    exact ⟨rfl, relationValue_runs hfork hzero hone hy rfl⟩

theorem OperandAt.runs {text : Bytes} (hat : OperandAt b.code table text i)
    (hr : table.Represents values m.locals) (h : b.At i m) :
    ∃ n, Meaning.operand values text = .ok n ∧
      b.Runs i (i + 1) m (m.goes (b.start (i + 1)) (m.stack.push (.int n))) := by
  rcases hat with ⟨v, hv, htype, hload⟩ | ⟨e, n, he, hn, hpush⟩
  · obtain ⟨d, hd, hd', hslot⟩ := hr.declared hv
    rw [htype] at hd'
    cases d with
    | text s => cases hd'
    | number n =>
      refine ⟨n, ?_, h.load hload hslot (.inl ⟨rfl, n, rfl⟩)⟩
      simp only [Meaning.operand, hd, Datum.toNumber]
  · refine ⟨n, ?_, h.pushInt hpush⟩
    simp only [Meaning.operand, hr.undeclared he, Meaning.literal_eq hn]

end Emission

end ClassForge
