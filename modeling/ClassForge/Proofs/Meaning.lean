import ClassForge.Compile.Error
import ClassForge.Machine.Input
import ClassForge.Source.Program

/-! What a program means. It is run as it is written, statement by statement, over the values of
its variables, the input that is left and the lines written so far. -/

namespace ClassForge

inductive Datum where
  | number (n : Int32)
  | text (s : Bytes)
deriving DecidableEq, Repr

/-- What ends a run early. A run is stuck where a program has no meaning. -/
inductive Stop where
  | divisionByZero
  | input (cause : InputError)
  | stuck
deriving DecidableEq, Repr

namespace Datum

def type : Datum → VarType
  | number _ => .integer
  | text _ => .text

def toNumber : Datum → Except Stop Int32
  | number n => .ok n
  | text _ => .error .stuck

def render : Datum → Bytes
  | number n => Decimal.ofInt n.toInt
  | text s => s

/-- The value that a variable starts with. -/
def initial : VarType → Datum
  | .integer => number 0
  | .text => text []

end Datum

namespace Meaning

/-- The values of the declared variables. -/
abbrev Values := Bytes → Option Datum

structure State where
  values : Values
  input : Input
  lines : Array Bytes := #[]

abbrev Run := EStateM Stop State

/-- Sums, differences and products are taken modulo 2^32, and quotients are cut off toward zero. -/
def arithmetic (op : Bytes) (a b : Int32) : Except Stop Int32 :=
  if op = ("+" : Bytes) then .ok (Int32.ofInt (a.toInt + b.toInt))
  else if op = ("-" : Bytes) then .ok (Int32.ofInt (a.toInt - b.toInt))
  else if op = ("*" : Bytes) then .ok (Int32.ofInt (a.toInt * b.toInt))
  else if op = ("/" : Bytes) then
    if b = 0 then .error .divisionByZero else .ok (Int32.ofInt (a.toInt.tdiv b.toInt))
  else .error .stuck

def holds (op : Bytes) (a b : Int32) : Except Stop Bool :=
  if op = ("GT" : Bytes) then .ok (b.toInt < a.toInt)
  else if op = ("LT" : Bytes) then .ok (a.toInt < b.toInt)
  else if op = ("EQ" : Bytes) then .ok (a.toInt = b.toInt)
  else if op = ("NEQ" : Bytes) then .ok (a.toInt ≠ b.toInt)
  else .error .stuck

def literal (digits : Bytes) : Except Stop Int32 :=
  match Decimal.parseInt32? digits with
  | some n => .ok n
  | none => .error .stuck

/-- The text that a literal stands for: what is between its first and its last byte, with a
replacement character for bytes that are no text. -/
def literalText (literal : Bytes) : Bytes :=
  Utf8.repair (if literal.length < 2 then literal else literal.tail.dropLast)

def valueOf (values : Values) (name : Bytes) : Except Stop Datum :=
  match values name with
  | some d => .ok d
  | none => .error .stuck

def eval (values : Values) : Expr → Except Stop Datum
  | .int digits => do return .number (← literal digits)
  | .text quoted => .ok (.text (literalText quoted))
  | .var name => valueOf values name
  | .arithmetic op left right => do
    let a ← (← eval values left).toNumber
    let b ← (← eval values right).toNumber
    return .number (← arithmetic op a b)
  | .comparison op left right => do
    let a ← (← eval values left).toNumber
    let b ← (← eval values right).toNumber
    return .number (if ← holds op a b then 1 else 0)

/-- The operand of a condition is the variable of that name, or else the number. -/
def operand (values : Values) (text : Bytes) : Except Stop Int32 :=
  match values text with
  | some d => d.toNumber
  | none => literal text

def condition (values : Values) (left op right : Bytes) : Except Stop Bool := do
  let a ← operand values left
  let b ← operand values right
  holds op a b

def printed (values : Values) : Option Expr → Except Stop Bytes
  | some (.var name) => do return (← valueOf values name).render
  | some (.text quoted) => .ok (literalText quoted)
  | _ => .error .stuck

def prompt (name : Bytes) : VarType → Bytes
  | .integer => Utf8.repair ("Please enter an integer value for " ++ name ++ ": ")
  | .text => Utf8.repair ("Please enter a String value for " ++ name ++ ": ")

/-- A value that depends on the variables. -/
def compute {α : Type} (x : Values → Except Stop α) : Run α := fun s =>
  match x s.values with
  | .ok a => .ok a s
  | .error e => .error e s

def writeLine (text : Bytes) : Run Unit :=
  modify fun s => { s with lines := s.lines.push (text ++ "\n") }

/-- Takes an item from the input. -/
def take {α : Type} (item : Input.Read α) : Run α := fun s =>
  match item s.input with
  | .ok a input => .ok a { s with input }
  | .error e input => .error (.input e) { s with input }

/-- A number or a line of the input. -/
def next : VarType → Input.Read Datum
  | .integer => do return .number (← Input.nextInt)
  | .text => do return .text (← Input.nextLine)

/-- Gives a variable a value of its type. -/
def assign (name : Bytes) (d : Datum) : Run Unit := fun s =>
  if (s.values name).map Datum.type = some d.type then
    .ok () { s with values := fun other => if other = name then some d else s.values other }
  else .error .stuck s

mutual

def exec : Stmt → Run Unit
  | .set name value => do assign name (← compute (eval · value))
  | .print value => do writeLine (← compute (printed · value))
  | .read name => do
    let type := (← compute (valueOf · name)).type
    writeLine (prompt name type)
    assign name (← take (next type))
  | .conditional left op right thenBody elseBody => do
    if ← compute (condition · left op right) then execAll thenBody else execAll elseBody

/-- Runs statements in turn. -/
def execAll : List Stmt → Run Unit
  | [] => pure ()
  | s :: rest => do
    exec s
    execAll rest

end

/-- The values that the variables start with. -/
def initialValues (declarations : List Declaration) : Values := fun name => do
  let d ← declarations.find? (·.name = name)
  let type ← VarType.ofName? d.type
  return Datum.initial type

end Meaning

/-- Runs a program on an input. -/
def Program.interpret (p : Program) (input : Input) : EStateM.Result Stop Meaning.State Unit :=
  Meaning.execAll p.body { values := Meaning.initialValues p.declarations, input }

end ClassForge
