import ClassForge.Text.Decimal
import ClassForge.Text.Quoted

/-! Why a program is refused. Compilation stops at the first error. -/

namespace ClassForge

/-- The types of variables. -/
inductive VarType where
  | integer
  | text
deriving DecidableEq, Repr

namespace VarType

def name : VarType → Bytes
  | integer => "INTEGER"
  | text => "STRING"

/-- The type with the given spelling in a declaration. -/
def ofName? (s : Bytes) : Option VarType :=
  if s == integer.name then some integer
  else if s == text.name then some text
  else none

/-- The name of a type by its number; numbers of no type are shown as such. -/
def nameOfNumber (n : Int) : Bytes :=
  if n = 0 then integer.name
  else if n = 1 then text.name
  else "VarType(" ++ Decimal.ofInt n ++ ")"

end VarType

/-- How far an emitter has come. -/
inductive Phase where
  | idle
  | opened
  | body
  | closed
deriving DecidableEq, Repr

namespace Phase

def name : Phase → Bytes
  | idle => "IDLE"
  | opened => "OPEN"
  | body => "BODY"
  | closed => "CLOSED"

/-- The name of a phase by its number; numbers of no phase are shown as such. -/
def nameOfNumber (n : Int) : Bytes :=
  if n = 0 then idle.name
  else if n = 1 then opened.name
  else if n = 2 then body.name
  else if n = 3 then closed.name
  else "EmitterState(" ++ Decimal.ofInt n ++ ")"

end Phase

inductive ProgramError where
  | unsupportedType (name type : Bytes)
  | undeclared (name : Bytes)
  | duplicate (name : Bytes)
  | malformedLiteral (literal : Bytes)
  | unknownComparison (op : Bytes)
  | unknownArithmetic (op : Bytes)
  | typeMismatch (context : Bytes) (want got : VarType)
  | unprintable (operand : Bytes)
  | invalidState (operation : Bytes) (phase : Phase)
deriving DecidableEq, Repr

namespace ProgramError

def mismatchText (context want got : Bytes) : Bytes :=
  "type mismatch in " ++ context ++ ": expected " ++ want ++ ", got " ++ got

def invalidText (operation phase : Bytes) : Bytes :=
  operation ++ " is not valid in state " ++ phase

def message : ProgramError → Bytes
  | unsupportedType name type =>
    "unsupported type " ++ type ++ " for variable " ++ name ++ ", expected INTEGER or STRING"
  | undeclared name => "variable " ++ name ++ " is not declared"
  | duplicate name => "variable " ++ name ++ " is already declared"
  | malformedLiteral literal => literal ++ " is not a valid integer literal"
  | unknownComparison op => "unrecognized comparison operator " ++ Quoted.text op
  | unknownArithmetic op => "unrecognized arithmetic operator " ++ Quoted.text op
  | typeMismatch context want got => mismatchText context want.name got.name
  | unprintable operand =>
    "cannot print " ++ operand ++ ", only a variable or a string literal"
  | invalidState operation phase => invalidText operation phase.name

end ProgramError

/-- The value of an integer literal. -/
def literalValue (literal : Bytes) : Except ProgramError Int32 :=
  match Decimal.parseInt32? literal with
  | some n => .ok n
  | none => .error (.malformedLiteral literal)

end ClassForge
