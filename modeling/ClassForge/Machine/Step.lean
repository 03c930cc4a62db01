import ClassForge.Machine.Basic

/-! One instruction of a running program. -/

namespace ClassForge

namespace Machine

def systemClass : Bytes := "java/lang/System"

def printStreamClass : Bytes := "java/io/PrintStream"

def scannerClass : Bytes := "java/util/Scanner"

def loadConstant (index : Nat) : Action Unit := do
  match ← constant index with
  | .integer n => push (.int n)
  | .stringRef s => push (.text s)
  | c => throw (.notLoadable index c.tag)

/-- The value in a slot. -/
def slotValue (op : UInt8) (slot : Nat) : Action Value := fun m =>
  match m.locals[slot]? with
  | some value => .ok value m
  | none => .error (.outsideLocals op slot m.locals.size) m

def setSlot (slot : Nat) (value : Value) : Action Unit :=
  modify fun m => { m with locals := m.locals.setIfInBounds slot value }

/-- An access to a local variable by an opcode that need not be one. -/
def access (op : UInt8) (slot : Nat) : Action Unit := do
  let held ← slotValue op slot
  match LocalOp.ofByte? op with
  | some .iload =>
    match held with
    | .int n => push (.int n)
    | found => throw (.loadNoInt slot found)
  | some .aload =>
    match held with
    | .int _ => throw (.loadInt slot)
    | value => push value
  | some .istore => setSlot slot (.int (← popInt))
  | some .astore =>
    match ← pop with
    | .int _ => throw (.storeInt slot)
    | value => setSlot slot value
  | none => throw (.notLocal op)

/-- Arithmetic wraps around; a quotient is cut off toward zero. -/
def arithmetic (op : ArithmeticOp) : Action Unit := do
  let right ← popInt
  let left ← popInt
  match op with
  | .add => push (.int (left + right))
  | .sub => push (.int (left - right))
  | .mul => push (.int (left * right))
  | .div => if right = 0 then throw .divisionByZero else push (.int (left / right))

/-- Continues at the distance `offset` from `start`. -/
def jump (start : Nat) (offset : Int) : Action Unit := fun m =>
  let target := (start : Int) + offset
  if target < 0 ∨ target ≥ m.code.size then .error (.outsideCode target) m
  else .ok () { m with pc := target.toNat }

def branch (relation : Relation) (start : Nat) : Action Unit := do
  let offset ← operand16
  let right ← popInt
  let left ← popInt
  if relation.holds left right then jump start (signed16 offset)

def fieldOperand : Action Member := do
  let index ← operand16
  match ← constant index with
  | .fieldRef m => pure m
  | c => throw (.wrongTag index c.tag 9)

def methodOperand : Action Member := do
  let index ← operand16
  match ← constant index with
  | .methodRef m => pure m
  | c => throw (.wrongTag index c.tag 10)

def getstatic : Action Unit := do
  let m ← fieldOperand
  if m.owner == systemClass && m.name == ("out" : Bytes) then push .outputStream
  else if m.owner == systemClass && m.name == ("in" : Bytes) then push .inputStream
  else throw (.unsupportedField m)

/-- Makes a scanner; it is of use when its constructor has run. -/
def newObject : Action Unit := do
  match ← constant (← operand16) with
  | .classRef name =>
    if name == scannerClass then do
      let number := (← get).scanners.size
      push (.scanner number)
      modify fun m => { m with scanners := m.scanners.push false }
    else throw (.cannotInstantiate name)
  | c => throw (.cannotInstantiate c.text)

def constructScanner : Action Unit := do
  match ← pop with
  | .inputStream =>
    match ← pop with
    | .scanner number =>
      modify fun m => { m with scanners := m.scanners.setIfInBounds number true }
    | found => throw (.scannerReceiver found)
  | found => throw (.scannerArgument found)

def takeScanner : Action Unit := do
  let found ← pop
  match found with
  | .scanner number =>
    if (← get).scanners[number]? = some true then pure () else throw (.notScanner found)
  | _ => throw (.notScanner found)

/-- A read from the input. -/
def read {α : Type} (item : Input.Read α) : Action α := fun m =>
  match item m.input with
  | .ok a input => .ok a { m with input }
  | .error e input => .error (.input e) { m with input }

def write (line : Bytes) : Action Unit := fun m =>
  match m.output.room with
  | some 0 => .error .outputBroken m
  | some (n + 1) =>
    .ok () { m with output := { lines := m.output.lines.push line, room := some n } }
  | none => .ok () { m with output := { lines := m.output.lines.push line } }

/-- The text that a call of println is to write. -/
def printText (descriptor : Bytes) : Action Bytes := do
  if descriptor == ("(I)V" : Bytes) then return Decimal.ofInt (← popInt).toInt
  else if descriptor == ("(Ljava/lang/String;)V" : Bytes) then
    match ← pop with
    | .text s => pure s
    | .null => pure "null"
    | found => throw (.printNoText found)
  else throw (.unsupportedPrint descriptor)

def println (descriptor : Bytes) : Action Unit := do
  let text ← printText descriptor
  match ← pop with
  | .outputStream => write (text ++ "\n")
  | found => throw (.printReceiver found)

def invoke (op : CallOp) : Action Unit := do
  let m ← methodOperand
  let key := m.callKey
  if op = .special && key == scannerClass ++ ".<init>(Ljava/io/InputStream;)V" then constructScanner
  else if op = .virtual && m.owner == printStreamClass && m.name == ("println" : Bytes) then
    println m.descriptor
  else if op = .virtual && key == scannerClass ++ ".nextInt()I" then do
    takeScanner
    push (.int (← read Input.nextInt))
  else if op = .virtual && key == scannerClass ++ ".nextLine()Ljava/lang/String;" then do
    takeScanner
    push (.text (← read Input.nextLine))
  else throw (.unsupportedCall op m)

/-- Executes the instruction with the given opcode at `start`. The result tells whether the program
has returned. -/
def execute (start : Nat) : Opcode → Action Bool
  | .nop => do advance 1; return false
  | .aconstNull => do advance 1; push .null; return false
  | .iconst n => do advance 1; push (.int (Int32.ofInt (n.val - 1))); return false
  | .bipush => do push (.int (Int32.ofInt (signed8 (← operand8)))); return false
  | .sipush => do push (.int (Int32.ofInt (signed16 (← operand16)))); return false
  | .ldc => do loadConstant (← operand8); return false
  | .ldcWide => do loadConstant (← operand16); return false
  | .access op => do access op.byte (← operand8); return false
  | .shortAccess op slot => do advance 1; access op.byte slot.val; return false
  | .wide => do
    let (op, slot) ← operand24
    access op slot
    return false
  | .pop => do advance 1; let _ ← pop; return false
  | .dup => do
    advance 1
    let value ← pop
    push value
    push value
    return false
  | .arithmetic op => do advance 1; arithmetic op; return false
  | .branch relation => do branch relation start; return false
  | .goto => do jump start (signed16 (← operand16)); return false
  | .returnVoid => do advance 1; return true
  | .getstatic => do getstatic; return false
  | .new => do newObject; return false
  | .invoke .static => throw (.unsupportedInstruction (Opcode.invoke .static).byte)
  | .invoke op => do invoke op; return false

/-- Executes the instruction at the counter, if there is one. -/
def step : Action Bool := fun m =>
  match m.code[m.pc]? with
  | some b =>
    match Opcode.ofByte? b with
    | some op => execute m.pc op m
    | none => .error (.unsupportedInstruction b) m
  | none => .error .truncated m

end Machine

end ClassForge
