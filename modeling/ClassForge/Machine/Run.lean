import ClassForge.Machine.Step

/-! Running a class. Before each instruction it is checked whether the run has been cancelled. -/

namespace ClassForge

inductive RunError where
  | read (cause : ReadError)
  | noCode (className : Bytes)
  | cancelled
  | fellOff (pc : Nat)
  | fault (pc : Nat) (cause : Fault)
deriving DecidableEq, Repr

def RunError.message : RunError → Bytes
  | read cause => cause.message
  | noCode className => "vm: " ++ className ++ ".main has no code"
  | cancelled => "context canceled"
  | fellOff pc => "vm: execution fell off the end of the code at " ++ Decimal.ofNat pc
  | fault pc cause => "vm: pc " ++ Decimal.ofNat pc ++ ": " ++ cause.message

/-- How a run ended, what it had written by then, and how often it was checked. -/
structure RunReport where
  error : Option RunError
  output : Output
  checks : Nat
deriving DecidableEq, Repr

namespace Machine

/-- Runs the machine; the check after `limit` passed ones finds the run cancelled. -/
def runFrom (checks : Nat) : (limit : Nat) → Machine → RunReport
  | 0, m => ⟨some .cancelled, m.output, checks + 1⟩
  | limit + 1, m =>
    if m.pc ≥ m.code.size then ⟨some (.fellOff m.pc), m.output, checks + 1⟩
    else
      match step m with
      | .ok true m => ⟨none, m.output, checks + 1⟩
      | .ok false m => runFrom (checks + 1) limit m
      | .error cause m => ⟨some (.fault m.pc cause), m.output, checks + 1⟩

def initialLocals (maxLocals : Nat) : Array Value :=
  (Array.replicate maxLocals Value.null).setIfInBounds 0 .arguments

/-- The machine at the start of the main method of a class. -/
def load (data : Bytes) (input : Input) (output : Output) : Except RunError Machine :=
  match ClassFile.parse data with
  | .error e => .error (.read e)
  | .ok c =>
    match c.lookupMethod ClassFile.mainName ClassFile.mainDescriptor with
    | .error e => .error (.read e)
    | .ok main =>
      match main.code with
      | none => .error (.noCode c.name)
      | some code => .ok {
          constants := c.constants
          code := code.bytecode.toArray
          maxStack := code.maxStack
          locals := initialLocals code.maxLocals
          input, output }

end Machine

/-- Runs the main method of a class. -/
def runClass (data : Bytes) (input : Input) (output : Output) (limit : Nat) : RunReport :=
  match Machine.load data input output with
  | .ok m => m.runFrom 0 limit
  | .error e => ⟨some e, output, 0⟩

end ClassForge
