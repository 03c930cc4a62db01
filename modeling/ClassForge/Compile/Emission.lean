import ClassForge.Assembly.Code
import ClassForge.Compile.Typing

/-! The instructions of expressions and statements. An expression leaves one value on the stack, a
statement leaves the stack as it was. What is emitted before an error stays in the sequence. -/

namespace ClassForge

inductive EmissionError where
  | program (cause : ProgramError)
  | code (cause : CodeError)
deriving DecidableEq, Repr

def EmissionError.message : EmissionError → Bytes
  | program cause => cause.message
  | code cause => cause.message

namespace Emission

def systemClass : Bytes := "java/lang/System"

def printStreamClass : Bytes := "java/io/PrintStream"

def scannerClass : Bytes := "java/util/Scanner"

def systemOut : Member := ⟨systemClass, "out", "Ljava/io/PrintStream;"⟩

def systemIn : Member := ⟨systemClass, "in", "Ljava/io/InputStream;"⟩

def scannerInit : Member := ⟨scannerClass, "<init>", "(Ljava/io/InputStream;)V"⟩

def nextInt : Member := ⟨scannerClass, "nextInt", "()I"⟩

def nextLine : Member := ⟨scannerClass, "nextLine", "()Ljava/lang/String;"⟩

def println : VarType → Member
  | .integer => ⟨printStreamClass, "println", "(I)V"⟩
  | .text => ⟨printStreamClass, "println", "(Ljava/lang/String;)V"⟩

abbrev Emitting := EStateM EmissionError Code

def onCode {α : Type} (x : Code.Coded α) : Emitting α :=
  x.adaptExcept .code

def append (instruction : Instruction) : Emitting Unit :=
  onCode (Code.append instruction)

def refuse {α : Type} (cause : ProgramError) : Emitting α :=
  throw (.program cause)

def ofExcept {α : Type} : Except ProgramError α → Emitting α
  | .ok a => pure a
  | .error e => refuse e

def load (v : Variable) : Emitting Unit :=
  match v.type with
  | .integer => append (.access .iload v.slot)
  | .text => append (.access .aload v.slot)

def store (v : Variable) : Emitting Unit :=
  match v.type with
  | .integer => append (.access .istore v.slot)
  | .text => append (.access .astore v.slot)

def getSystemOut : Emitting Unit :=
  append (.field Opcode.getstatic.byte systemOut)

/-- Prints the value on the stack, below which the output stream stands. -/
def callPrintln (type : VarType) : Emitting Unit :=
  append (.invoke (Opcode.invoke .virtual).byte (println type))

def arithmeticOp? (op : Bytes) : Option ArithmeticOp :=
  if op == ("+" : Bytes) then some .add
  else if op == ("-" : Bytes) then some .sub
  else if op == ("*" : Bytes) then some .mul
  else if op == ("/" : Bytes) then some .div
  else none

def relation? (op : Bytes) : Option Relation :=
  if op == ("GT" : Bytes) then some .gt
  else if op == ("LT" : Bytes) then some .lt
  else if op == ("EQ" : Bytes) then some .eq
  else if op == ("NEQ" : Bytes) then some .ne
  else none

/-- Turns the two integers on the stack into 1 when the relation holds, and into 0 otherwise. -/
def relationValue (relation : Relation) : Emitting Unit := do
  let holds ← onCode Code.newLabel
  let done ← onCode Code.newLabel
  append (.jump (.when relation) holds)
  append (.pushInt 0)
  append (.jump .always done)
  onCode (Code.place holds)
  append (.pushInt 1)
  onCode (Code.place done)

def expression (table : SymbolTable) : Expr → Emitting Unit
  | .int literal => do append (.pushInt (← ofExcept (literalValue literal)))
  | .text literal => append (.pushText (Bytes.unquote literal))
  | .var name => do load (← ofExcept (table.lookup name))
  | .arithmetic op left right => do
    let some op := arithmeticOp? op | refuse (.unknownArithmetic op)
    expression table left
    expression table right
    append (.simple (Opcode.arithmetic op).byte)
  | .comparison op left right => do
    let some relation := relation? op | refuse (.unknownComparison op)
    expression table left
    expression table right
    relationValue relation

/-- Pushes an operand of a condition: the variable of that name, or else the literal. -/
def operand (table : SymbolTable) (text : Bytes) : Emitting Unit := do
  match table.lookup text with
  | .ok v =>
    if v.type ≠ .integer then refuse (.typeMismatch "IF condition" .integer v.type)
    append (.access .iload v.slot)
  | .error e =>
    if Bytes.isIdentifier text then refuse e
    append (.pushInt (← ofExcept (literalValue text)))

def prompt (v : Variable) : Bytes :=
  match v.type with
  | .integer => "Please enter an integer value for " ++ v.name ++ ": "
  | .text => "Please enter a String value for " ++ v.name ++ ": "

/-- What statements refer to: the variables, and the slot of the input reader if there is one. -/
structure Scope where
  table : SymbolTable
  reader : Option Nat

def print (table : SymbolTable) : Option Expr → Emitting Unit
  | some (.var name) => do
    let v ← ofExcept (table.lookup name)
    getSystemOut
    load v
    callPrintln v.type
  | some (.text literal) => do
    getSystemOut
    append (.pushText (Bytes.unquote literal))
    callPrintln .text
  | operand => refuse (.unprintable (operandText operand))

/-- Prints a prompt and stores a number or a line of the input. -/
def read (scope : Scope) (name : Bytes) : Emitting Unit := do
  let v ← ofExcept (scope.table.lookup name)
  let some reader := scope.reader
    | refuse (.invalidState ("READ " ++ name ++ " without an input reader") .body)
  getSystemOut
  append (.pushText (prompt v))
  callPrintln .text
  append (.access .aload reader)
  match v.type with
  | .integer => append (.invoke (Opcode.invoke .virtual).byte nextInt)
  | .text => append (.invoke (Opcode.invoke .virtual).byte nextLine)
  store v

mutual

/-- In a conditional the second branch comes first: it runs when the jump is not taken. -/
def statement (scope : Scope) : Stmt → Emitting Unit
  | .set name value => do
    let target ← ofExcept (scope.table.lookup name)
    expression scope.table value
    store target
  | .print value => print scope.table value
  | .read name => read scope name
  | .conditional left op right thenBody elseBody => do
    let some relation := relation? op | refuse (.unknownComparison op)
    operand scope.table left
    operand scope.table right
    let holds ← onCode Code.newLabel
    let done ← onCode Code.newLabel
    append (.jump (.when relation) holds)
    statements scope elseBody
    append (.jump .always done)
    onCode (Code.place holds)
    statements scope thenBody
    onCode (Code.place done)

def statements (scope : Scope) : List Stmt → Emitting Unit
  | [] => pure ()
  | s :: rest => do
    statement scope s
    statements scope rest

end

/-- Gives a variable its first value. -/
def initialise (v : Variable) : Emitting Unit := do
  match v.type with
  | .integer => append (.pushInt 0)
  | .text => append (.pushText [])
  store v

def initialiseAll : List Variable → Emitting Unit
  | [] => pure ()
  | v :: rest => do
    initialise v
    initialiseAll rest

/-- Constructs the input reader in a slot. -/
def constructReader (slot : Nat) : Emitting Unit := do
  append (.type Opcode.new.byte scannerClass)
  append (.simple Opcode.dup.byte)
  append (.field Opcode.getstatic.byte systemIn)
  append (.invoke (Opcode.invoke .special).byte scannerInit)
  append (.access .astore slot)

end Emission

end ClassForge
