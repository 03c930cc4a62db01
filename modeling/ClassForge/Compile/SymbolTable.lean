import ClassForge.Compile.Error
import ClassForge.Source.Program
import Std.Data.HashMap

/-! The variables of a program. They and the temporaries of the compiler take their slots from one
counter, so no slot is used twice. -/

namespace ClassForge

structure Variable where
  name : Bytes
  type : VarType
  slot : Nat
deriving DecidableEq, Repr

structure SymbolTable where
  byName : Std.HashMap Bytes Variable := ∅
  /-- In the order of declaration. -/
  declared : Array Variable := #[]
  nextSlot : Nat := 0

namespace SymbolTable

/-- Gives a new variable the next slot. The type is looked at before the name. -/
def declare (table : SymbolTable) (name type : Bytes) :
    EStateM.Result ProgramError SymbolTable Variable :=
  match VarType.ofName? type with
  | none => .error (.unsupportedType name type) table
  | some type =>
    if table.byName.contains name then .error (.duplicate name) table
    else
      let v : Variable := { name, type, slot := table.nextSlot }
      .ok v {
        byName := table.byName.insert name v
        declared := table.declared.push v
        nextSlot := table.nextSlot + 1 }

def lookup (table : SymbolTable) (name : Bytes) : Except ProgramError Variable :=
  match table.byName[name]? with
  | some v => .ok v
  | none => .error (.undeclared name)

/-- A slot for the compiler's own use, which belongs to no name. -/
def reserve (table : SymbolTable) : Nat × SymbolTable :=
  (table.nextSlot, { table with nextSlot := table.nextSlot + 1 })

/-- The size of the local variable area, in which the arguments of the program have a place. -/
def maxLocals (table : SymbolTable) : Nat :=
  max 1 table.nextSlot

/-- Declares variables in turn, up to the first error. -/
def declareAll (table : SymbolTable) :
    List Declaration → EStateM.Result ProgramError SymbolTable Unit
  | [] => .ok () table
  | d :: rest =>
    match table.declare d.name d.type with
    | .ok _ table => declareAll table rest
    | .error e table => .error e table

end SymbolTable

end ClassForge
