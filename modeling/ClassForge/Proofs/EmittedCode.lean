import ClassForge.Proofs.CodeGrowth
import ClassForge.Compile.Emitter

/-! The instructions of expressions and statements, as they stand in a finished sequence. What is
emitted for a tree lies between two entries, and it is a complete piece of code. -/

namespace ClassForge

namespace Emission

def loadOf (v : Variable) : Instruction :=
  match v.type with
  | .integer => .access .iload v.slot
  | .text => .access .aload v.slot

def storeOf (v : Variable) : Instruction :=
  match v.type with
  | .integer => .access .istore v.slot
  | .text => .access .astore v.slot

def nextOf : VarType → Member
  | .integer => nextInt
  | .text => nextLine

/-- The first value of a variable. -/
def firstOf : VarType → Instruction
  | .integer => .pushInt 0
  | .text => .pushText []

/-- Entries `i` to `j` are the code of the expression. -/
def ExprAt (full : Code) (table : SymbolTable) : Expr → (i j : Nat) → Prop
  | .int literal, i, j =>
    ∃ value, literalValue literal = .ok value ∧ full.entries[i]? = some (.pushInt value) ∧
      j = i + 1
  | .text literal, i, j => full.entries[i]? = some (.pushText (Bytes.unquote literal)) ∧ j = i + 1
  | .var name, i, j =>
    ∃ v, table.lookup name = .ok v ∧ full.entries[i]? = some (loadOf v) ∧ j = i + 1
  | .arithmetic op left right, i, j =>
    ∃ op' k k', arithmeticOp? op = some op' ∧ ExprAt full table left i k ∧
      ExprAt full table right k k' ∧
      full.entries[k']? = some (.simple (Opcode.arithmetic op').byte) ∧ j = k' + 1
  | .comparison op left right, i, j =>
    ∃ relation k k', relation? op = some relation ∧ ExprAt full table left i k ∧
      ExprAt full table right k k' ∧ full.Forks relation k' (k' + 2) (k' + 5) ∧
      full.entries[k' + 1]? = some (.pushInt 0) ∧ full.entries[k' + 4]? = some (.pushInt 1) ∧
      j = k' + 6

/-- Entry `i` is the code of the operand of a condition. -/
def OperandAt (full : Code) (table : SymbolTable) (text : Bytes) (i : Nat) : Prop :=
  (∃ v, table.lookup text = .ok v ∧ v.type = .integer ∧
    full.entries[i]? = some (.access .iload v.slot)) ∨
  (∃ e value, table.lookup text = .error e ∧ literalValue text = .ok value ∧
    full.entries[i]? = some (.pushInt value))

/-- Entries `i` to `i + 3` print what entry `i + 1` pushes, a value of the type. -/
def PrintsAt (full : Code) (value : Instruction) (type : VarType) (i : Nat) : Prop :=
  full.entries[i]? = some (.field Opcode.getstatic.byte systemOut) ∧
    full.entries[i + 1]? = some value ∧
    full.entries[i + 2]? = some (.invoke (Opcode.invoke .virtual).byte (println type))

def PrintAt (full : Code) (table : SymbolTable) : Option Expr → (i j : Nat) → Prop
  | some (.var name), i, j =>
    ∃ v, table.lookup name = .ok v ∧ PrintsAt full (loadOf v) v.type i ∧ j = i + 3
  | some (.text literal), i, j =>
    PrintsAt full (.pushText (Bytes.unquote literal)) .text i ∧ j = i + 3
  | _, _, _ => False

def ReadAt (full : Code) (scope : Scope) (name : Bytes) (i j : Nat) : Prop :=
  ∃ v reader, scope.table.lookup name = .ok v ∧ scope.reader = some reader ∧
    PrintsAt full (.pushText (prompt v)) .text i ∧
    full.entries[i + 3]? = some (.access .aload reader) ∧
    full.entries[i + 4]? = some (.invoke (Opcode.invoke .virtual).byte (nextOf v.type)) ∧
    full.entries[i + 5]? = some (storeOf v) ∧ j = i + 6

mutual

/-- Entries `i` to `j` are the code of the statement. -/
def StmtAt (full : Code) (scope : Scope) : Stmt → (i j : Nat) → Prop
  | .set name value, i, j =>
    ∃ v k, scope.table.lookup name = .ok v ∧ ExprAt full scope.table value i k ∧
      full.entries[k]? = some (storeOf v) ∧ j = k + 1
  | .print value, i, j => PrintAt full scope.table value i j
  | .read name, i, j => ReadAt full scope name i j
  | .conditional left op right thenBody elseBody, i, j =>
    ∃ relation k k', relation? op = some relation ∧ OperandAt full scope.table left i ∧
      OperandAt full scope.table right (i + 1) ∧ full.Forks relation (i + 2) k k' ∧
      StmtsAt full scope elseBody (i + 3) k ∧ StmtsAt full scope thenBody (k + 2) k' ∧ j = k' + 1

def StmtsAt (full : Code) (scope : Scope) : List Stmt → (i j : Nat) → Prop
  | [], i, j => j = i
  | s :: rest, i, j => ∃ k, StmtAt full scope s i k ∧ StmtsAt full scope rest k j

end

def InitialisedAt (full : Code) : List Variable → (i j : Nat) → Prop
  | [], i, j => j = i
  | v :: rest, i, j =>
    full.entries[i]? = some (firstOf v.type) ∧ full.entries[i + 1]? = some (storeOf v) ∧
      InitialisedAt full rest (i + 2) j

def ReaderAt (full : Code) (slot : Nat) (i j : Nat) : Prop :=
  full.entries[i]? = some (.type Opcode.new.byte scannerClass) ∧
    full.entries[i + 1]? = some (.simple Opcode.dup.byte) ∧
    full.entries[i + 2]? = some (.field Opcode.getstatic.byte systemIn) ∧
    full.entries[i + 3]? = some (.invoke (Opcode.invoke .special).byte scannerInit) ∧
    full.entries[i + 4]? = some (.access .astore slot) ∧ j = i + 5

/-- The instructions that stand in emitted code, where the slots are below a bound. -/
inductive Operation (slots : Nat) : Instruction → Prop
  | pushInt (value : Int32) : Operation slots (.pushInt value)
  | pushText (text : Bytes) : Operation slots (.pushText text)
  | access (op : LocalOp) {slot : Nat} (h : slot < slots) : Operation slots (.access op slot)
  | arithmetic (op : ArithmeticOp) : Operation slots (.simple (Opcode.arithmetic op).byte)
  | dup : Operation slots (.simple Opcode.dup.byte)
  | systemOut : Operation slots (.field Opcode.getstatic.byte systemOut)
  | systemIn : Operation slots (.field Opcode.getstatic.byte systemIn)
  | new : Operation slots (.type Opcode.new.byte scannerClass)
  | scannerInit : Operation slots (.invoke (Opcode.invoke .special).byte scannerInit)
  | println (type : VarType) :
      Operation slots (.invoke (Opcode.invoke .virtual).byte (println type))
  | next (type : VarType) :
      Operation slots (.invoke (Opcode.invoke .virtual).byte (nextOf type))
  | jump (op : JumpOp) (label : Label) : Operation slots (.jump op label)
  | mark (label : Label) : Operation slots (.mark label)

/-- The slots of the variables are below the bound. -/
def Bounds (slots : Nat) (table : SymbolTable) : Prop :=
  ∀ {name : Bytes} {v : Variable}, table.lookup name = .ok v → v.slot < slots

def Scope.Bounds (slots : Nat) (scope : Scope) : Prop :=
  Emission.Bounds slots scope.table ∧ ∀ {reader : Nat}, scope.reader = some reader → reader < slots

/-! The steps of emission, when they succeed. -/

variable {α : Type} {code code' : Code} {i : Instruction} {label : Label} {a : α} {u : Unit}

theorem of_append_bind {f : Unit → Emitting α} (h : (append i >>= f) code = .ok a code') :
    f () (code.push i) = .ok a code' := by
  obtain ⟨_, code₁, h₁, h₂⟩ := ok_of_bind_eq_ok h
  simp only [append, onCode, adaptExcept_eq_ok, Code.append] at h₁
  split at h₁
  · cases h₁
  · cases h₁
    exact h₂

theorem append_eq_ok (h : append i code = .ok u code') : code' = code.push i := by
  simp only [append, onCode, adaptExcept_eq_ok, Code.append] at h
  split at h
  · cases h
  · cases h
    rfl

theorem of_newLabel_bind {f : Label → Emitting α}
    (h : (onCode Code.newLabel >>= f) code = .ok a code') :
    f code.nextLabel code.addLabel = .ok a code' :=
  h

theorem place_eq_ok (h : onCode (Code.place label) code = .ok u code') :
    code' = code.mark label := by
  simp only [onCode, adaptExcept_eq_ok, Code.place, Code.append] at h
  split at h
  · cases h
  · split at h
    · cases h
    · split at h
      · cases h
      · cases h
        rfl

theorem of_ofExcept_bind {β : Type} {x : Except ProgramError β} {f : β → Emitting α}
    (h : (ofExcept x >>= f) code = .ok a code') : ∃ b, x = .ok b ∧ f b code = .ok a code' := by
  cases x with
  | error e => cases h
  | ok b => exact ⟨b, rfl, h⟩

theorem load_eq (v : Variable) : load v = append (loadOf v) := by
  simp only [load, loadOf]
  cases v.type <;> rfl

theorem store_eq (v : Variable) : store v = append (storeOf v) := by
  simp only [store, storeOf]
  cases v.type <;> rfl

theorem of_fork {x y : Emitting Unit} {relation : Relation}
    (h : (do
      let holds ← onCode Code.newLabel
      let done ← onCode Code.newLabel
      append (.jump (.when relation) holds)
      x
      append (.jump .always done)
      onCode (Code.place holds)
      y
      onCode (Code.place done) : Emitting Unit) code = .ok u code') :
    ∃ first second, x (code.openFork relation) = .ok () first ∧
      y (code.turnFork first) = .ok () second ∧ code' = code.closeFork second := by
  have h := of_append_bind (of_newLabel_bind (of_newLabel_bind h))
  obtain ⟨_, first, hx, h⟩ := ok_of_bind_eq_ok h
  obtain ⟨_, code₁, hplace, h⟩ := ok_of_bind_eq_ok (of_append_bind h)
  cases place_eq_ok hplace
  obtain ⟨_, second, hy, h⟩ := ok_of_bind_eq_ok h
  exact ⟨first, second, hx, hy, place_eq_ok h⟩

/-- A complete piece of code has been emitted, and in every sequence that grows from there it has
the given shape. -/
structure Emitted (slots : Nat) (code code' : Code) (shape : Code → (i j : Nat) → Prop) : Prop where
  fragment : code.Fragment code'
  operations : (∀ i ∈ code.entries, Operation slots i) → ∀ i ∈ code'.entries, Operation slots i
  shape : ∀ full, code'.Grows full → shape full code.entries.size code'.entries.size

variable {slots : Nat} {table : SymbolTable} {scope : Scope}

theorem isPlain_loadOf (v : Variable) : (loadOf v).isPlain = true := by
  simp only [loadOf]
  cases v.type <;> rfl

theorem isPlain_storeOf (v : Variable) : (storeOf v).isPlain = true := by
  simp only [storeOf]
  cases v.type <;> rfl

theorem operation_loadOf {v : Variable} (h : v.slot < slots) : Operation slots (loadOf v) := by
  simp only [loadOf]
  cases v.type <;> exact .access _ h

theorem operation_storeOf {v : Variable} (h : v.slot < slots) : Operation slots (storeOf v) := by
  simp only [storeOf]
  cases v.type <;> exact .access _ h

namespace Emitted

variable {middle first second : Code} {relation : Relation}
variable {shape shape' : Code → (i j : Nat) → Prop}

theorem imp (h : Emitted slots code code' shape)
    (himp : ∀ full i j, shape full i j → shape' full i j) : Emitted slots code code' shape' :=
  ⟨h.fragment, h.operations, fun full hg => himp full _ _ (h.shape full hg)⟩

theorem refl : Emitted slots code code fun _ i j => j = i :=
  ⟨.refl code, id, fun _ _ => rfl⟩

theorem trans (h : Emitted slots code middle shape) (h' : Emitted slots middle code' shape') :
    Emitted slots code code' fun full i j => ∃ k, shape full i k ∧ shape' full k j :=
  ⟨h.fragment.trans h'.fragment, fun ho => h'.operations (h.operations ho), fun full hg =>
    ⟨_, h.shape full (h'.fragment.grows.trans hg), h'.shape full hg⟩⟩

theorem push (ho : Operation slots i) (hi : i.isPlain = true) :
    Emitted slots code (code.push i) fun full k j => full.entries[k]? = some i ∧ j = k + 1 := by
  refine ⟨.push hi, fun hall k hk => ?_, fun _ hg => ⟨hg.at_end, by simp⟩⟩
  rcases Array.mem_push.mp hk with hk | rfl
  · exact hall k hk
  · exact ho

theorem fork (h : Emitted slots (code.openFork relation) first shape)
    (h' : Emitted slots (code.turnFork first) second shape') :
    Emitted slots code (code.closeFork second) fun full i j => ∃ k k',
      full.Forks relation i k k' ∧ shape full (i + 1) k ∧ shape' full (k + 2) k' ∧ j = k' + 1 := by
  refine ⟨.fork h.fragment h'.fragment, fun ho => ?_, fun full hg => ?_⟩
  · have hopen : ∀ i ∈ (code.openFork relation).entries, Operation slots i := by
      simpa [Code.openFork, or_imp, forall_and] using ⟨ho, Operation.jump _ _⟩
    have hturn : ∀ i ∈ (code.turnFork first).entries, Operation slots i := by
      simpa [Code.turnFork, or_imp, forall_and] using
        ⟨⟨h.operations hopen, Operation.jump _ _⟩, Operation.mark _⟩
    simpa [Code.closeFork, or_imp, forall_and] using ⟨h'.operations hturn, Operation.mark _⟩
  · have hsecond := (Code.grows_closeFork h.fragment h'.fragment).trans hg
    have hfirst : first.Grows full := (Code.Grows.push _ _).trans
      ((Code.grows_turnFork h.fragment).trans (h'.fragment.grows.trans hsecond))
    refine ⟨_, _, h.fragment.forks h'.fragment hg, ?_, ?_, by simp [Code.closeFork]⟩
    · simpa [Code.openFork] using h.shape full hfirst
    · simpa [Code.turnFork] using h'.shape full hsecond

end Emitted

theorem append_emitted (ho : Operation slots i) (hi : i.isPlain = true)
    (h : append i code = .ok u code') :
    Emitted slots code code' fun full k j => full.entries[k]? = some i ∧ j = k + 1 :=
  append_eq_ok h ▸ Emitted.push ho hi

theorem relationValue_emitted {relation : Relation}
    (h : relationValue relation code = .ok u code') :
    Emitted slots code code' fun full i j => full.Forks relation i (i + 2) (i + 5) ∧
      full.entries[i + 1]? = some (.pushInt 0) ∧ full.entries[i + 4]? = some (.pushInt 1) ∧
      j = i + 6 := by
  obtain ⟨first, second, hx, hy, rfl⟩ := of_fork h
  refine ((append_emitted (.pushInt 0) rfl hx).fork (append_emitted (.pushInt 1) rfl hy)).imp ?_
  rintro full i j ⟨_, _, hfork, ⟨hzero, rfl⟩, ⟨hone, rfl⟩, rfl⟩
  exact ⟨hfork, hzero, hone, rfl⟩

theorem expression_emitted (hb : Bounds slots table) {e : Expr}
    (h : expression table e code = .ok u code') :
    Emitted slots code code' fun full => ExprAt full table e := by
  induction e generalizing code code' u with
  | int literal =>
    obtain ⟨value, hvalue, h⟩ := of_ofExcept_bind h
    refine (append_emitted (.pushInt value) rfl h).imp fun full i j hs => ?_
    exact ⟨value, hvalue, hs⟩
  | text literal => exact append_emitted (.pushText _) rfl h
  | var name =>
    obtain ⟨v, hv, h⟩ := of_ofExcept_bind h
    rw [load_eq] at h
    refine (append_emitted (operation_loadOf (hb hv)) (isPlain_loadOf v) h).imp
      fun full i j hs => ?_
    exact ⟨v, hv, hs⟩
  | arithmetic op left right ihl ihr =>
    simp only [expression] at h
    cases hop : arithmeticOp? op with
    | none =>
      simp only [hop] at h
      cases h
    | some op' =>
      simp only [hop] at h
      obtain ⟨_, code₁, hl, h⟩ := ok_of_bind_eq_ok h
      obtain ⟨_, code₂, hr, h⟩ := ok_of_bind_eq_ok h
      refine (((ihl hl).trans (ihr hr)).trans (append_emitted (.arithmetic op') rfl h)).imp ?_
      rintro full i j ⟨k', ⟨k, hleft, hright⟩, hs⟩
      exact ⟨op', k, k', hop, hleft, hright, hs⟩
  | comparison op left right ihl ihr =>
    simp only [expression] at h
    cases hop : relation? op with
    | none =>
      simp only [hop] at h
      cases h
    | some relation =>
      simp only [hop] at h
      obtain ⟨_, code₁, hl, h⟩ := ok_of_bind_eq_ok h
      obtain ⟨_, code₂, hr, h⟩ := ok_of_bind_eq_ok h
      refine (((ihl hl).trans (ihr hr)).trans (relationValue_emitted h)).imp ?_
      rintro full i j ⟨k', ⟨k, hleft, hright⟩, hs⟩
      exact ⟨relation, k, k', hop, hleft, hright, hs⟩

theorem operand_emitted (hb : Bounds slots table) {text : Bytes}
    (h : operand table text code = .ok u code') :
    Emitted slots code code' fun full i j => OperandAt full table text i ∧ j = i + 1 := by
  simp only [operand] at h
  cases hv : table.lookup text with
  | ok v =>
    simp only [hv] at h
    by_cases htype : v.type = .integer
    · simp only [htype, ne_eq, not_true_eq_false, if_false] at h
      refine (append_emitted (.access _ (hb hv)) rfl h).imp ?_
      rintro full i j ⟨hi, hj⟩
      exact ⟨.inl ⟨v, hv, htype, hi⟩, hj⟩
    · simp only [htype, ne_eq, not_false_eq_true, if_true] at h
      cases h
  | error e =>
    simp only [hv] at h
    by_cases hname : Bytes.isIdentifier text = true
    · simp only [hname, if_true] at h
      cases h
    · simp only [hname] at h
      obtain ⟨value, hvalue, h⟩ := of_ofExcept_bind h
      refine (append_emitted (.pushInt value) rfl h).imp ?_
      rintro full i j ⟨hi, hj⟩
      exact ⟨.inr ⟨e, value, hv, hvalue, hi⟩, hj⟩

theorem emitted_prints {value : Instruction} (ho : Operation slots value)
    (hv : value.isPlain = true) (type : VarType) :
    Emitted slots code (((code.push (.field Opcode.getstatic.byte systemOut)).push value).push
        (.invoke (Opcode.invoke .virtual).byte (println type)))
      fun full i j => PrintsAt full value type i ∧ j = i + 3 := by
  refine (((Emitted.push .systemOut rfl).trans (Emitted.push ho hv)).trans
    (Emitted.push (.println type) rfl)).imp ?_
  rintro full i j ⟨_, ⟨_, ⟨hout, rfl⟩, hvalue, rfl⟩, hcall, rfl⟩
  exact ⟨⟨hout, hvalue, hcall⟩, rfl⟩

theorem print_emitted (hb : Bounds slots table) {value : Option Expr}
    (h : print table value code = .ok u code') :
    Emitted slots code code' fun full => PrintAt full table value := by
  match value, h with
  | some (.var name), h =>
    obtain ⟨v, hv, h⟩ := of_ofExcept_bind h
    rw [load_eq] at h
    cases append_eq_ok (of_append_bind (of_append_bind h))
    exact (emitted_prints (operation_loadOf (hb hv)) (isPlain_loadOf v) v.type).imp
      fun full i j hp => ⟨v, hv, hp⟩
  | some (.text literal), h =>
    cases append_eq_ok (of_append_bind (of_append_bind h))
    exact emitted_prints (.pushText _) rfl .text

theorem read_eq {name : Bytes} {v : Variable} {reader : Nat}
    (hv : scope.table.lookup name = .ok v) (hr : scope.reader = some reader) :
    read scope name = (do
      getSystemOut
      append (.pushText (prompt v))
      callPrintln .text
      append (.access .aload reader)
      append (.invoke (Opcode.invoke .virtual).byte (nextOf v.type))
      append (storeOf v)) := by
  simp only [read, hv, hr, store_eq, ofExcept, pure_bind]
  cases v.type <;> rfl

theorem read_emitted (hb : scope.Bounds slots) {name : Bytes}
    (h : read scope name code = .ok u code') :
    Emitted slots code code' fun full => ReadAt full scope name := by
  obtain ⟨v, hv, hrest⟩ := of_ofExcept_bind h
  cases hr : scope.reader with
  | none =>
    simp only [hr] at hrest
    cases hrest
  | some reader =>
    rw [read_eq hv hr] at h
    cases append_eq_ok (of_append_bind (of_append_bind (of_append_bind (of_append_bind
      (of_append_bind h)))))
    refine ((((emitted_prints (.pushText _) rfl .text).trans
      (Emitted.push (.access _ (hb.2 hr)) rfl)).trans (Emitted.push (.next v.type) rfl)).trans
      (Emitted.push (operation_storeOf (hb.1 hv)) (isPlain_storeOf v))).imp ?_
    rintro full i j ⟨_, ⟨_, ⟨_, ⟨hp, rfl⟩, hload, rfl⟩, hcall, rfl⟩, hstore, rfl⟩
    exact ⟨v, reader, hv, hr, hp, hload, hcall, hstore, rfl⟩

mutual

theorem statement_emitted (hb : scope.Bounds slots) : {s : Stmt} → {code code' : Code} →
    statement scope s code = .ok () code' →
    Emitted slots code code' fun full => StmtAt full scope s
  | .set name value, code, code', h => by
    simp only [statement, store_eq] at h
    obtain ⟨v, hv, h⟩ := of_ofExcept_bind h
    obtain ⟨_, middle, hvalue, h⟩ := ok_of_bind_eq_ok h
    refine ((expression_emitted hb.1 hvalue).trans
      (append_emitted (operation_storeOf (hb.1 hv)) (isPlain_storeOf v) h)).imp ?_
    rintro full i j ⟨k, hexpr, hs⟩
    exact ⟨v, k, hv, hexpr, hs⟩
  | .print value, code, code', h => by
    simp only [statement] at h
    simpa only [StmtAt] using print_emitted hb.1 h
  | .read name, code, code', h => by
    simp only [statement] at h
    simpa only [StmtAt] using read_emitted hb h
  | .conditional left op right thenBody elseBody, code, code', h => by
    simp only [statement] at h
    cases hop : relation? op with
    | none =>
      simp only [hop] at h
      cases h
    | some relation =>
      simp only [hop] at h
      obtain ⟨_, code₁, hl, h⟩ := ok_of_bind_eq_ok h
      obtain ⟨_, code₂, hr, h⟩ := ok_of_bind_eq_ok h
      obtain ⟨first, second, helse, hthen, rfl⟩ := of_fork h
      refine (((operand_emitted hb.1 hl).trans (operand_emitted hb.1 hr)).trans
        ((statements_emitted hb helse).fork (statements_emitted hb hthen))).imp ?_
      rintro full i j ⟨_, ⟨_, ⟨hleft, rfl⟩, hright, rfl⟩, k, k', hfork, hs, hs', hj⟩
      simp only [StmtAt]
      exact ⟨relation, k, k', hop, hleft, hright, hfork, hs, hs', hj⟩

theorem statements_emitted (hb : scope.Bounds slots) : {body : List Stmt} → {code code' : Code} →
    statements scope body code = .ok () code' →
    Emitted slots code code' fun full => StmtsAt full scope body
  | [], code, code', h => by
    simp only [statements] at h
    cases h
    exact Emitted.refl.imp fun full i j hj => by simpa only [StmtsAt] using hj
  | s :: rest, code, code', h => by
    simp only [statements] at h
    obtain ⟨_, middle, hs, h⟩ := ok_of_bind_eq_ok h
    refine ((statement_emitted hb hs).trans (statements_emitted hb h)).imp fun full i j hk => ?_
    simpa only [StmtsAt] using hk

end

theorem initialise_eq (v : Variable) : initialise v = (do
    append (firstOf v.type)
    append (storeOf v)) := by
  simp only [initialise, store_eq]
  cases v.type <;> rfl

theorem initialiseAll_emitted {vs : List Variable} (hb : ∀ v ∈ vs, v.slot < slots)
    (h : initialiseAll vs code = .ok u code') :
    Emitted slots code code' fun full => InitialisedAt full vs := by
  induction vs generalizing code with
  | nil =>
    cases h
    exact Emitted.refl
  | cons v rest ih =>
    simp only [initialiseAll, initialise_eq] at h
    obtain ⟨_, middle, hv, h⟩ := ok_of_bind_eq_ok h
    have hplain : (firstOf v.type).isPlain = true := by cases v.type <;> rfl
    have hfirst : Operation slots (firstOf v.type) := by
      cases v.type
      · exact .pushInt 0
      · exact .pushText []
    have hstore := operation_storeOf (hb v (by simp))
    cases append_eq_ok (of_append_bind hv)
    refine (((Emitted.push hfirst hplain).trans (Emitted.push hstore (isPlain_storeOf v))).trans
      (ih (fun w hw => hb w (by simp [hw])) h)).imp ?_
    rintro full i j ⟨_, ⟨_, ⟨hpush, rfl⟩, hstore, rfl⟩, hs⟩
    exact ⟨hpush, hstore, hs⟩

theorem constructReader_emitted {slot : Nat} (hb : slot < slots)
    (h : constructReader slot code = .ok u code') :
    Emitted slots code code' fun full => ReaderAt full slot := by
  cases append_eq_ok (of_append_bind (of_append_bind (of_append_bind (of_append_bind h))))
  refine ((((Emitted.push .new rfl).trans (Emitted.push .dup rfl)).trans
    (Emitted.push .systemIn rfl)).trans (Emitted.push .scannerInit rfl)).trans
    (Emitted.push (.access _ hb) rfl) |>.imp ?_
  rintro full i j ⟨_, ⟨_, ⟨_, ⟨_, ⟨hnew, rfl⟩, hdup, rfl⟩, hin, rfl⟩, hinit, rfl⟩, hs, rfl⟩
  exact ⟨hnew, hdup, hin, hinit, hs, rfl⟩

end Emission

end ClassForge
