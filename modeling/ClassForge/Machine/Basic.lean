import ClassForge.ClassFile.Reader
import ClassForge.Machine.Input

/-! The state of a running program: its frame, the objects it has made, its input and its
output. -/

namespace ClassForge

inductive Value where
  | int (n : Int32)
  | text (s : Bytes)
  | null
  /-- The argument array that a program starts with. -/
  | arguments
  | outputStream
  | inputStream
  | scanner (number : Nat)
deriving DecidableEq, Repr

def Value.typeName : Value → Bytes
  | int _ => "int32"
  | text _ => "string"
  | null => "<nil>"
  | arguments => "[]string"
  | outputStream => "*vmtranslator.printStream"
  | inputStream => "*vmtranslator.inputStream"
  | scanner _ => "*vmtranslator.scanner"

/-- The lines written, the last one at the end. With `room` a number, only so many more are
accepted. -/
structure Output where
  lines : Array Bytes := #[]
  room : Option Nat := none
deriving DecidableEq, Repr

def Output.bytes (output : Output) : Bytes :=
  output.lines.toList.flatten

/-- What stops an instruction. -/
inductive Fault where
  | truncated
  | unsupportedInstruction (op : UInt8)
  | stackOverflow (maxStack : Nat)
  | stackUnderflow
  | expectedInt (found : Value)
  | constant (cause : ReadError)
  | wrongTag (index tag expected : Nat)
  | notLoadable (index tag : Nat)
  | outsideLocals (op : UInt8) (slot maxLocals : Nat)
  | loadNoInt (slot : Nat) (found : Value)
  | loadInt (slot : Nat)
  | storeInt (slot : Nat)
  | notLocal (op : UInt8)
  | divisionByZero
  | outsideCode (target : Int)
  | unsupportedField (member : Member)
  | cannotInstantiate (name : Bytes)
  | unsupportedCall (op : CallOp) (member : Member)
  | unsupportedPrint (descriptor : Bytes)
  | printNoText (found : Value)
  | printReceiver (found : Value)
  | scannerArgument (found : Value)
  | scannerReceiver (found : Value)
  | notScanner (found : Value)
  | outputBroken
  | input (cause : InputError)
deriving DecidableEq, Repr

/-- The name under which a call is looked up. -/
def Member.callKey (m : Member) : Bytes :=
  m.owner ++ "." ++ m.name ++ m.descriptor

def Fault.message : Fault → Bytes
  | truncated => "truncated instruction"
  | unsupportedInstruction op => "unsupported instruction " ++ Opcode.nameOfByte op
  | stackOverflow maxStack => "operand stack overflow, max stack " ++ Decimal.ofNat maxStack
  | stackUnderflow => "operand stack underflow"
  | expectedInt found => "expected int on the stack, got " ++ found.typeName
  | constant cause => cause.message
  | wrongTag index tag expected =>
    "constant " ++ Decimal.ofNat index ++ " has tag " ++ Decimal.ofNat tag ++ ", expected " ++
      Decimal.ofNat expected
  | notLoadable index tag =>
    "ldc of constant " ++ Decimal.ofNat index ++ " with tag " ++ Decimal.ofNat tag
  | outsideLocals op slot maxLocals =>
    Opcode.nameOfByte op ++ " " ++ Decimal.ofNat slot ++ " outside max locals " ++
      Decimal.ofNat maxLocals
  | loadNoInt slot found =>
    "iload " ++ Decimal.ofNat slot ++ ": slot holds " ++ found.typeName
  | loadInt slot => "aload " ++ Decimal.ofNat slot ++ ": slot holds an int"
  | storeInt slot => "astore " ++ Decimal.ofNat slot ++ " of an int"
  | notLocal op => Opcode.nameOfByte op ++ " is not a local variable instruction"
  | divisionByZero => "java.lang.ArithmeticException: / by zero"
  | outsideCode target => "branch target " ++ Decimal.ofInt target ++ " outside code"
  | unsupportedField member => "unsupported field " ++ member.owner ++ "." ++ member.name
  | cannotInstantiate name => "cannot instantiate " ++ name
  | unsupportedCall op member =>
    "unsupported call " ++ (Opcode.invoke op).name ++ " " ++ member.callKey
  | unsupportedPrint descriptor => "unsupported println" ++ descriptor
  | printNoText found => "println(String) of " ++ found.typeName
  | printReceiver found => "println on " ++ found.typeName
  | scannerArgument found => "Scanner.<init> expects an InputStream, got " ++ found.typeName
  | scannerReceiver found => "Scanner.<init> on " ++ found.typeName
  | notScanner found => "expected an initialized Scanner, got " ++ found.typeName
  | outputBroken => "output broken"
  | input cause => cause.message

/-- A running program. `scanners` tells for each scanner whether its constructor has run. -/
structure Machine where
  constants : Array Constant
  code : Array UInt8
  maxStack : Nat
  pc : Nat := 0
  locals : Array Value
  stack : Array Value := #[]
  scanners : Array Bool := #[]
  input : Input
  output : Output := {}
deriving DecidableEq, Repr

namespace Machine

/-- A part of an instruction. A fault leaves the machine where the part had taken it. -/
abbrev Action := EStateM Fault Machine

def push (value : Value) : Action Unit := fun m =>
  if m.stack.size ≥ m.maxStack then .error (.stackOverflow m.maxStack) m
  else .ok () { m with stack := m.stack.push value }

def pop : Action Value := fun m =>
  match m.stack.back? with
  | some value => .ok value { m with stack := m.stack.pop }
  | none => .error .stackUnderflow m

def popInt : Action Int32 := do
  match ← pop with
  | .int n => pure n
  | found => throw (.expectedInt found)

def advance (n : Nat) : Action Unit :=
  modify fun m => { m with pc := m.pc + n }

/-- The byte after the opcode; the counter moves behind it. -/
def operand8 : Action Nat := fun m =>
  match m.code[m.pc + 1]? with
  | some a => .ok a.toNat { m with pc := m.pc + 2 }
  | none => .error .truncated m

/-- The two bytes after the opcode; the counter moves behind them. -/
def operand16 : Action Nat := fun m =>
  match m.code[m.pc + 1]?, m.code[m.pc + 2]? with
  | some a, some b => .ok (a.toNat * 256 + b.toNat) { m with pc := m.pc + 3 }
  | _, _ => .error .truncated m

/-- The three bytes after the opcode as a byte and a number; the counter moves behind them. -/
def operand24 : Action (UInt8 × Nat) := fun m =>
  match m.code[m.pc + 1]?, m.code[m.pc + 2]?, m.code[m.pc + 3]? with
  | some a, some b, some c => .ok (a, b.toNat * 256 + c.toNat) { m with pc := m.pc + 4 }
  | _, _, _ => .error .truncated m

def signed8 (n : Nat) : Int :=
  if n < 128 then n else (n : Int) - 256

def signed16 (n : Nat) : Int :=
  if n < 32768 then n else (n : Int) - 65536

def constant (index : Nat) : Action Constant := fun m =>
  match constantAt m.constants index with
  | .ok c => .ok c m
  | .error e => .error (.constant e) m

end Machine

end ClassForge
