import Mathlib
import ClassForge.Machine.Run
import ClassForge.Sequencing

/-! The machine over plain memory. The counter is any number, constants, code, locals and stack are
reached by index, and scanners by reference. Only the tests that an instruction makes itself keep it
from an access outside of what there is; such an access is a crash, and no fault. -/

namespace ClassForge

/-- An access that there is nothing at the other end of. -/
inductive Crash where
  | index (i : Int) (size : Nat)
  | slice (low high : Int) (size : Nat)
  | nilReference
  /-- A constant that has no tag. -/
  | untagged (index : Nat)
  | zeroDivisor
deriving DecidableEq, Repr

namespace Memory

variable {α : Type}

def element (xs : Array α) (i : Int) : Except Crash α :=
  if i < 0 then .error (.index i xs.size)
  else
    match xs[i.toNat]? with
    | some a => .ok a
    | none => .error (.index i xs.size)

def slice (xs : Array α) (low high : Int) : Except Crash (Array α) :=
  if 0 ≤ low ∧ low ≤ high ∧ high ≤ xs.size then .ok (xs.extract low.toNat high.toNat)
  else .error (.slice low high xs.size)

def update (xs : Array α) (i : Int) (a : α) : Except Crash (Array α) :=
  if 0 ≤ i ∧ i < xs.size then .ok (xs.setIfInBounds i.toNat a) else .error (.index i xs.size)

def follow : Option α → Except Crash α
  | some a => .ok a
  | none => .error .nilReference

def quotient (left right : Int32) : Except Crash Int32 :=
  if right = 0 then .error .zeroDivisor else .ok (left / right)

variable {xs : Array α} {i j : Nat}

theorem element_natCast (h : i < xs.size) : element xs (i : Int) = .ok xs[i] := by
  simp only [element, Int.toNat_natCast, Array.getElem?_eq_getElem h]
  rw [if_neg (by omega)]

theorem slice_natCast (hij : i ≤ j) (hj : j ≤ xs.size) :
    slice xs (i : Int) (j : Int) = .ok (xs.extract i j) := by
  simp only [slice, Int.toNat_natCast]
  rw [if_pos (by omega)]

theorem update_natCast (h : i < xs.size) (a : α) :
    update xs (i : Int) a = .ok (xs.setIfInBounds i a) := by
  simp only [update, Int.toNat_natCast]
  rw [if_pos (by omega)]

end Memory

structure RawMachine where
  /-- Constant 0 is unused and has no tag. -/
  pool : Array (Option Constant)
  code : Array UInt8
  maxStack : Nat
  pc : Int := 0
  locals : Array Value
  stack : Array Value := #[]
  /-- The scanners, each with the stream it reads once its constructor has run. -/
  scanners : Array (Option Unit) := #[]
  input : Input
  output : Output := {}

/-- What ends an instruction early. -/
inductive Halt where
  | fault (cause : Fault)
  | crash (cause : Crash)

namespace RawMachine

abbrev Action := EStateM Halt RawMachine

variable {α : Type}

def fault (cause : Fault) : Action α :=
  throw (.fault cause)

/-- The test that an instruction makes before it goes on. -/
def faultIf (c : Prop) [Decidable c] (cause : Fault) : Action Unit :=
  if c then fault cause else pure ()

def memory (x : Except Crash α) : Action α :=
  match x with
  | .ok a => pure a
  | .error cause => throw (.crash cause)

def push (value : Value) : Action Unit := do
  let m ← get
  faultIf (m.stack.size ≥ m.maxStack) (.stackOverflow m.maxStack)
  set { m with stack := m.stack.push value }

def pop : Action Value := do
  let m ← get
  faultIf (m.stack.size = 0) .stackUnderflow
  let value ← memory (Memory.element m.stack ((m.stack.size : Int) - 1))
  let rest ← memory (Memory.slice m.stack 0 ((m.stack.size : Int) - 1))
  set { m with stack := rest }
  return value

def popInt : Action Int32 := do
  match ← pop with
  | .int n => pure n
  | found => fault (.expectedInt found)

def advance (n : Nat) : Action Unit :=
  modify fun m => { m with pc := m.pc + n }

/-- The `n` bytes after the opcode; the counter moves behind them. -/
def operand (n : Nat) : Action (Array UInt8) := do
  let m ← get
  faultIf (m.pc + 1 + n > m.code.size) .truncated
  let bytes ← memory (Memory.slice m.code (m.pc + 1) (m.pc + 1 + n))
  set { m with pc := m.pc + 1 + n }
  return bytes

def operand8 : Action Nat := do
  let bytes ← operand 1
  let a ← memory (Memory.element bytes 0)
  return a.toNat

def operand16 : Action Nat := do
  let bytes ← operand 2
  let a ← memory (Memory.element bytes 0)
  let b ← memory (Memory.element bytes 1)
  return a.toNat * 256 + b.toNat

def operand24 : Action (UInt8 × Nat) := do
  let bytes ← operand 3
  let op ← memory (Memory.element bytes 0)
  let rest ← memory (Memory.slice bytes 1 bytes.size)
  let a ← memory (Memory.element rest 0)
  let b ← memory (Memory.element rest 1)
  return (op, a.toNat * 256 + b.toNat)

def constant (index : Nat) : Action Constant := do
  let m ← get
  faultIf (index = 0 ∨ index ≥ m.pool.size) (.constant (.badIndex index))
  let found ← memory (Memory.element m.pool index)
  faultIf (found = none) (.constant (.badIndex index))
  match ← memory (Memory.element m.pool index) with
  | some c => return c
  | none => throw (.crash (.untagged index))

def loadConstant (index : Nat) : Action Unit := do
  match ← constant index with
  | .integer n => push (.int n)
  | .stringRef s => push (.text s)
  | c => fault (.notLoadable index c.tag)

def slotValue (op : UInt8) (slot : Nat) : Action Value := do
  let m ← get
  faultIf (slot ≥ m.locals.size) (.outsideLocals op slot m.locals.size)
  memory (Memory.element m.locals slot)

def setSlot (slot : Nat) (value : Value) : Action Unit := do
  let m ← get
  let locals ← memory (Memory.update m.locals slot value)
  set { m with locals }

def access (op : UInt8) (slot : Nat) : Action Unit := do
  let held ← slotValue op slot
  match LocalOp.ofByte? op with
  | some .iload =>
    match held with
    | .int n => push (.int n)
    | found => fault (.loadNoInt slot found)
  | some .aload =>
    match held with
    | .int _ => fault (.loadInt slot)
    | value => push value
  | some .istore => setSlot slot (.int (← popInt))
  | some .astore =>
    match ← pop with
    | .int _ => fault (.storeInt slot)
    | value => setSlot slot value
  | none => fault (.notLocal op)

def arithmetic (op : ArithmeticOp) : Action Unit := do
  let right ← popInt
  let left ← popInt
  match op with
  | .add => push (.int (left + right))
  | .sub => push (.int (left - right))
  | .mul => push (.int (left * right))
  | .div =>
    if right = 0 then fault .divisionByZero
    else push (.int (← memory (Memory.quotient left right)))

def jump (start offset : Int) : Action Unit := do
  let target := start + offset
  let m ← get
  faultIf (target < 0 ∨ target ≥ m.code.size) (.outsideCode target)
  set { m with pc := target }

def branch (relation : Relation) (start : Int) : Action Unit := do
  let offset ← operand16
  let right ← popInt
  let left ← popInt
  if relation.holds left right then jump start (Machine.signed16 offset)

def fieldOperand : Action Member := do
  let index ← operand16
  match ← constant index with
  | .fieldRef m => pure m
  | c => fault (.wrongTag index c.tag 9)

def methodOperand : Action Member := do
  let index ← operand16
  match ← constant index with
  | .methodRef m => pure m
  | c => fault (.wrongTag index c.tag 10)

def getstatic : Action Unit := do
  let m ← fieldOperand
  if m.owner == Machine.systemClass && m.name == ("out" : Bytes) then push .outputStream
  else if m.owner == Machine.systemClass && m.name == ("in" : Bytes) then push .inputStream
  else fault (.unsupportedField m)

/-- A new scanner gets the next number, and has no stream. -/
def newObject : Action Unit := do
  match ← constant (← operand16) with
  | .classRef name =>
    if name == Machine.scannerClass then do
      let number := (← get).scanners.size
      push (.scanner number)
      modify fun m => { m with scanners := m.scanners.push none }
    else fault (.cannotInstantiate name)
  | c => fault (.cannotInstantiate c.text)

def constructScanner : Action Unit := do
  match ← pop with
  | .inputStream =>
    match ← pop with
    | .scanner number =>
      let m ← get
      let scanners ← memory (Memory.update m.scanners number (some ()))
      set { m with scanners }
    | found => fault (.scannerReceiver found)
  | found => fault (.scannerArgument found)

def readThrough (number : Nat) (item : Input.Read α) : Action α := do
  let m ← get
  let stream ← memory (Memory.element m.scanners number)
  faultIf (stream = none) (.notScanner (.scanner number))
  memory (Memory.follow stream)
  match item m.input with
  | .ok a input =>
    set { m with input }
    return a
  | .error e input =>
    set { m with input }
    fault (.input e)

def scan (item : Input.Read α) : Action α := do
  match ← pop with
  | .scanner number => readThrough number item
  | found => fault (.notScanner found)

def write (line : Bytes) : Action Unit := do
  let m ← get
  match m.output.room with
  | some 0 => fault .outputBroken
  | some (n + 1) => set { m with output := { lines := m.output.lines.push line, room := some n } }
  | none => set { m with output := { lines := m.output.lines.push line } }

def printText (descriptor : Bytes) : Action Bytes := do
  if descriptor == ("(I)V" : Bytes) then return Decimal.ofInt (← popInt).toInt
  else if descriptor == ("(Ljava/lang/String;)V" : Bytes) then
    match ← pop with
    | .text s => pure s
    | .null => pure "null"
    | found => fault (.printNoText found)
  else fault (.unsupportedPrint descriptor)

def println (descriptor : Bytes) : Action Unit := do
  let text ← printText descriptor
  match ← pop with
  | .outputStream => write (text ++ "\n")
  | found => fault (.printReceiver found)

def invoke (op : CallOp) : Action Unit := do
  let m ← methodOperand
  let key := m.callKey
  if op = .special && key == Machine.scannerClass ++ ".<init>(Ljava/io/InputStream;)V" then
    constructScanner
  else if op = .virtual && m.owner == Machine.printStreamClass && m.name == ("println" : Bytes) then
    println m.descriptor
  else if op = .virtual && key == Machine.scannerClass ++ ".nextInt()I" then
    push (.int (← scan Input.nextInt))
  else if op = .virtual && key == Machine.scannerClass ++ ".nextLine()Ljava/lang/String;" then
    push (.text (← scan Input.nextLine))
  else fault (.unsupportedCall op m)

def execute (start : Int) : Opcode → Action Bool
  | .nop => do advance 1; return false
  | .aconstNull => do advance 1; push .null; return false
  | .iconst n => do advance 1; push (.int (Int32.ofInt (n.val - 1))); return false
  | .bipush => do push (.int (Int32.ofInt (Machine.signed8 (← operand8)))); return false
  | .sipush => do push (.int (Int32.ofInt (Machine.signed16 (← operand16)))); return false
  | .ldc => do loadConstant (← operand8); return false
  | .ldcWide => do loadConstant (← operand16); return false
  | .access op => do access op.byte (← operand8); return false
  | .shortAccess op slot => do advance 1; access op.byte slot.val; return false
  | .wide => do
    let (op, slot) ← operand24
    access op slot
    return false
  | .pop => do advance 1; let _ ← pop; return false
  | .dup => do
    advance 1
    let value ← pop
    push value
    push value
    return false
  | .arithmetic op => do advance 1; arithmetic op; return false
  | .branch relation => do branch relation start; return false
  | .goto => do jump start (Machine.signed16 (← operand16)); return false
  | .returnVoid => do advance 1; return true
  | .getstatic => do getstatic; return false
  | .new => do newObject; return false
  | .invoke .static => fault (.unsupportedInstruction (Opcode.invoke .static).byte)
  | .invoke op => do invoke op; return false

/-- Executes the instruction at the counter, without asking whether there is one. -/
def step : Action Bool := do
  let m ← get
  let b ← memory (Memory.element m.code m.pc)
  match Opcode.ofByte? b with
  | some op => execute m.pc op
  | none => fault (.unsupportedInstruction b)

def runFrom (checks : Nat) : (limit : Nat) → RawMachine → Except Crash RunReport
  | 0, m => .ok ⟨some .cancelled, m.output, checks + 1⟩
  | limit + 1, m =>
    if m.pc ≥ m.code.size then .ok ⟨some (.fellOff m.pc.toNat), m.output, checks + 1⟩
    else
      match step m with
      | .ok true m => .ok ⟨none, m.output, checks + 1⟩
      | .ok false m => runFrom (checks + 1) limit m
      | .error (.fault cause) m => .ok ⟨some (.fault m.pc.toNat cause), m.output, checks + 1⟩
      | .error (.crash cause) _ => .error cause

/-- The machine at the start of a body. -/
def enter (c : ClassFile) (body : CodeAttribute) (input : Input) (output : Output) :
    Except Crash RawMachine := do
  let blank := Array.replicate body.maxLocals Value.null
  let locals ← if blank.size > 0 then Memory.update blank 0 .arguments else pure blank
  return {
    pool := #[none] ++ c.constants.map some
    code := body.bytecode.toArray
    maxStack := body.maxStack
    locals, input, output }

/-- Runs the main method of a class, once the class has been read. -/
def runClass (data : Bytes) (input : Input) (output : Output) (limit : Nat) :
    Except Crash RunReport :=
  match ClassFile.parse data with
  | .error e => .ok ⟨some (.read e), output, 0⟩
  | .ok c =>
    match c.lookupMethod ClassFile.mainName ClassFile.mainDescriptor with
    | .error e => .ok ⟨some (.read e), output, 0⟩
    | .ok main =>
      if main.code.isNone then .ok ⟨some (.noCode c.name), output, 0⟩
      else do
        let body ← Memory.follow main.code
        (← enter c body input output).runFrom 0 limit

end RawMachine

end ClassForge
