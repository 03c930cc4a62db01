import ClassForge.Bytes

/-! Programs as trees. Names, types, literals and operators stand as they are written; which of
them are accepted is decided later. -/

namespace ClassForge

inductive Expr where
  | int (literal : Bytes)
  /-- A text literal with its delimiters. -/
  | text (literal : Bytes)
  | var (name : Bytes)
  | arithmetic (op : Bytes) (left right : Expr)
  /-- A comparison is 1 when the relation holds and 0 otherwise. -/
  | comparison (op : Bytes) (left right : Expr)
deriving DecidableEq, Repr

inductive Stmt where
  | set (name : Bytes) (value : Expr)
  | print (operand : Option Expr)
  | read (name : Bytes)
  /-- The operands of the condition are names or integer literals. -/
  | conditional (left op right : Bytes) (thenBody elseBody : List Stmt)
deriving Repr

/-- A declaration with its type as written. -/
structure Declaration where
  type : Bytes
  name : Bytes
deriving DecidableEq, Repr

structure Program where
  name : Bytes
  declarations : List Declaration
  body : List Stmt
deriving Repr

namespace Expr

/-- The text of an expression in front of `tail`. Every operation is in parentheses. -/
def renderBefore : Expr → (tail : Bytes) → Bytes
  | int literal, tail | text literal, tail => literal ++ tail
  | var name, tail => name ++ tail
  | arithmetic op left right, tail | comparison op left right, tail =>
    "(" ++ renderBefore left (" " ++ op ++ " " ++ renderBefore right (")" ++ tail))

def render (e : Expr) : Bytes :=
  e.renderBefore []

end Expr

mutual

/-- Whether a statement is a READ or holds one at any depth. -/
def Stmt.reads : Stmt → Bool
  | .read _ => true
  | .conditional _ _ _ thenBody elseBody => anyReads thenBody || anyReads elseBody
  | _ => false

def anyReads : List Stmt → Bool
  | [] => false
  | s :: rest => s.reads || anyReads rest

end

end ClassForge
