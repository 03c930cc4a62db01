import ClassForge.Assembly.Method

/-! Several instruction sequences over one constant pool. A label belongs to one of the sequences
and can be offered to any of them. -/

namespace ClassForge

inductive WorkbenchError where
  | code (cause : CodeError)
  | assembly (cause : AssemblyError)
deriving DecidableEq, Repr

def WorkbenchError.message : WorkbenchError → Bytes
  | code cause => cause.message
  | assembly cause => cause.message

/-- The sequences, each at the index that is its number. -/
structure Workbench where
  codes : Array Code := #[{}]
  pool : ConstantPool := {}

namespace Workbench

abbrev Worked := EStateM WorkbenchError Workbench

def code (bench : Workbench) (seq : Nat) : Code :=
  bench.codes[seq]?.getD { serial := seq }

/-- A step on one sequence, which is taken from the bench while the step runs. -/
def onCode {α : Type} (seq : Nat) (step : Code.Coded α) : Worked α := fun ⟨codes, pool⟩ =>
  let code := codes[seq]?.getD { serial := seq }
  let others := codes.setIfInBounds seq {}
  match step code with
  | .ok a code => .ok a ⟨others.setIfInBounds seq code, pool⟩
  | .error e code => .error (.code e) ⟨others.setIfInBounds seq code, pool⟩

/-- Starts a new sequence and gives its number. -/
def newCode : Worked Nat := fun bench =>
  .ok bench.codes.size
    { bench with codes := bench.codes.push { serial := bench.codes.size } }

def isPlaced (bench : Workbench) (label : Label) : Bool :=
  ((bench.code label.owner).place? label).isSome

/-- Binds a label to the end of a sequence. A label that is placed anywhere is refused first. -/
def place (seq : Nat) (label : Label) : Worked Unit := do
  if (← get).isPlaced label then throw (.code (.placedTwice label))
  onCode seq (Code.place label)

/-- Assembles a sequence and seals it if that succeeds. -/
def assemble (seq : Nat) (leastLocals : Int) : Worked Method := fun bench =>
  match (bench.code seq).assemble leastLocals bench.pool with
  | .ok method pool =>
    .ok method { codes := bench.codes.modify seq Code.sealed, pool }
  | .error e pool => .error (.assembly e) { bench with pool }

end Workbench

end ClassForge
