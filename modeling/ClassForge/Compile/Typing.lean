import ClassForge.Compile.SymbolTable
import ClassForge.Source.Program

/-! Type checking. Arithmetic and comparisons take integers and give integers, an assignment needs
a value of the type of its target, and the operands of a condition that are names are integer
variables. -/

namespace ClassForge

/-- The type of an expression. -/
def Expr.typeIn (table : SymbolTable) : Expr → Except ProgramError VarType
  | .int _ => .ok .integer
  | .text _ => .ok .text
  | .var name => do return (← table.lookup name).type
  | .arithmetic op left right => do
    expectInteger (.arithmetic op left right) (← typeIn table left)
    expectInteger (.arithmetic op left right) (← typeIn table right)
    return .integer
  | .comparison op left right => do
    expectInteger (.comparison op left right) (← typeIn table left)
    expectInteger (.comparison op left right) (← typeIn table right)
    return .integer
where
  /-- Refuses an operand of another type in the operation `whole`. -/
  expectInteger (whole : Expr) : VarType → Except ProgramError Unit
    | .integer => .ok ()
    | .text => .error (.typeMismatch whole.render .integer .text)

/-- What is shown of an operand that cannot be printed. -/
def operandText : Option Expr → Bytes
  | some e => e.render
  | none => "<nil>"

/-- Checks an operand of a condition. One that is not a name is checked when its code is emitted. -/
def checkOperand (table : SymbolTable) (operand : Bytes) : Except ProgramError Unit := do
  if Bytes.isIdentifier operand then
    let v ← table.lookup operand
    if v.type ≠ .integer then
      throw (.typeMismatch "IF condition" .integer v.type)

mutual

def Stmt.check (table : SymbolTable) : Stmt → Except ProgramError Unit
  | .set name value => do
    let target ← table.lookup name
    let type ← value.typeIn table
    if type ≠ target.type then
      throw (.typeMismatch ("assignment to " ++ name) target.type type)
  | .print (some (.var name)) => do
    let _ ← table.lookup name
  | .print (some (.text _)) => .ok ()
  | .print operand => .error (.unprintable (operandText operand))
  | .read name => do
    let _ ← table.lookup name
  | .conditional left _ right thenBody elseBody => do
    checkOperand table left
    checkOperand table right
    checkAll table thenBody
    checkAll table elseBody

/-- Checks statements in turn, up to the first error. -/
def checkAll (table : SymbolTable) : List Stmt → Except ProgramError Unit
  | [] => .ok ()
  | s :: rest => do
    s.check table
    checkAll table rest

end

end ClassForge
