import ClassForge.Sequencing
import ClassForge.Source.Lexer
import ClassForge.Source.Precedence
import ClassForge.Source.Program

/-! From tokens to programs. The grammar is

* program: `PROGRAM` name `DECLARE` (type name)* `BEGIN` statement* `END`
* type: `INTEGER`, `STRING` or a name
* statement: `SET`? name `:=` expression, `PRINT` (text or name), `READ` name, or
  `IF` operand comparison operand `THEN` statement* (`ELSE` statement*)? `ENDIF`
* operand: a number or a name

A parser that fails gives the tokens from the one it could not use. -/

namespace ClassForge

/-- The tokens from the first one that does not fit. -/
structure SyntaxError where
  rest : List Token
deriving DecidableEq, Repr

def SyntaxError.message (e : SyntaxError) : Bytes :=
  match e.rest with
  | [] => "unexpected token ends"
  | t :: _ => "syntax error near " ++ t.content ++ " at line " ++ Decimal.ofNat t.line

/-- An infix operator in its canonical spelling. -/
structure Operator where
  isComparison : Bool
  op : Bytes
deriving DecidableEq, Repr

namespace Operator

/-- Comparisons bind loosest, products and quotients tightest. -/
def priority (o : Operator) : Nat :=
  if o.isComparison then 1
  else if o.op == ("+" : Bytes) || o.op == ("-" : Bytes) then 2
  else 3

def node (o : Operator) (left right : Expr) : Expr :=
  if o.isComparison then .comparison o.op left right else .arithmetic o.op left right

def ofKind? : TokenKind → Option Operator
  | .symbol .greater | .keyword .gt => some ⟨true, "GT"⟩
  | .symbol .less | .keyword .lt => some ⟨true, "LT"⟩
  | .symbol .equal | .keyword .eq => some ⟨true, "EQ"⟩
  | .symbol .unequal | .keyword .neq => some ⟨true, "NEQ"⟩
  | .symbol .plus => some ⟨false, "+"⟩
  | .symbol .minus => some ⟨false, "-"⟩
  | .symbol .times => some ⟨false, "*"⟩
  | .symbol .slash => some ⟨false, "/"⟩
  | _ => none

end Operator

namespace Parser

/-- What a parser of an `α` gives: the value and the tokens behind it. -/
abbrev Result (α : Type) := Except SyntaxError (α × List Token)

/-- The operators that wait for their right operand. -/
abbrev Pending := List (Expr × Operator)

mutual

/-- Reads an expression from the start of a term on. `outer` holds what is pending outside of each
open parenthesis. -/
def termFrom (outer : List Pending) (pending : Pending) : List Token → Result Expr
  | [] => .error ⟨[]⟩
  | t :: rest =>
    match t.kind with
    | .number => operatorFrom outer pending (.int t.content) rest
    | .text => operatorFrom outer pending (.text t.content) rest
    | .identifier => operatorFrom outer pending (.var t.content) rest
    | .symbol .leftParen => termFrom (pending :: outer) [] rest
    | _ => .error ⟨t :: rest⟩

/-- Reads the rest of an expression after a term. -/
def operatorFrom (outer : List Pending) (pending : Pending) (term : Expr) :
    List Token → Result Expr
  | [] =>
    match outer with
    | [] => .ok (Precedence.finish Operator.node Operator.priority pending term, [])
    | _ => .error ⟨[]⟩
  | t :: rest =>
    match Operator.ofKind? t.kind with
    | some op =>
      termFrom outer (Precedence.shift Operator.node Operator.priority op pending term) rest
    | none =>
      let whole := Precedence.finish Operator.node Operator.priority pending term
      match outer with
      | [] => .ok (whole, t :: rest)
      | pending :: outer =>
        if t.kind = .symbol .rightParen then operatorFrom outer pending whole rest
        else .error ⟨t :: rest⟩

end

def expression (tokens : List Token) : Result Expr :=
  termFrom [] [] tokens

mutual

theorem length_termFrom {outer : List Pending} {pending : Pending} {tokens rest : List Token}
    {e : Expr} (h : termFrom outer pending tokens = .ok (e, rest)) :
    rest.length < tokens.length := by
  cases tokens with
  | nil => simp [termFrom] at h
  | cons t tokens =>
    simp only [termFrom] at h
    split at h
    · exact Nat.lt_succ_of_le (length_operatorFrom h)
    · exact Nat.lt_succ_of_le (length_operatorFrom h)
    · exact Nat.lt_succ_of_le (length_operatorFrom h)
    · exact Nat.lt_succ_of_lt (length_termFrom h)
    · simp at h

theorem length_operatorFrom {outer : List Pending} {pending : Pending} {term e : Expr}
    {tokens rest : List Token} (h : operatorFrom outer pending term tokens = .ok (e, rest)) :
    rest.length ≤ tokens.length := by
  cases tokens with
  | nil =>
    simp only [operatorFrom] at h
    split at h
    · simp only [Except.ok.injEq, Prod.mk.injEq] at h
      simp [← h.2]
    · simp at h
  | cons t tokens =>
    simp only [operatorFrom] at h
    split at h
    · exact Nat.le_succ_of_le (Nat.le_of_lt (length_termFrom h))
    · split at h
      · simp only [Except.ok.injEq, Prod.mk.injEq] at h
        simp [← h.2]
      · split at h
        · exact Nat.le_succ_of_le (length_operatorFrom h)
        · simp at h

end

theorem length_expression {tokens rest : List Token} {e : Expr}
    (h : expression tokens = .ok (e, rest)) : rest.length < tokens.length :=
  length_termFrom h

/-- The content of a token of the given kind. -/
def expect (kind : TokenKind) : List Token → Result Bytes
  | [] => .error ⟨[]⟩
  | t :: rest => if t.kind = kind then .ok (t.content, rest) else .error ⟨t :: rest⟩

def assignment (tokens : List Token) : Except SyntaxError (Stmt × List Token) := do
  let (name, tokens) ← expect .identifier tokens
  let (_, tokens) ← expect (.symbol .assign) tokens
  let (value, tokens) ← expression tokens
  return (.set name value, tokens)

def printOperand : List Token → Result Expr
  | [] => .error ⟨[]⟩
  | t :: rest =>
    match t.kind with
    | .text => .ok (.text t.content, rest)
    | .identifier => .ok (.var t.content, rest)
    | _ => .error ⟨t :: rest⟩

/-- A statement other than a conditional. -/
def simpleStatement : List Token → Except SyntaxError (Stmt × List Token)
  | [] => .error ⟨[]⟩
  | t :: rest =>
    match t.kind with
    | .keyword .set => assignment rest
    | .identifier => assignment (t :: rest)
    | .keyword .print => do
      let (operand, tokens) ← printOperand rest
      return (.print (some operand), tokens)
    | .keyword .read => do
      let (name, tokens) ← expect .identifier rest
      return (.read name, tokens)
    | _ => .error ⟨t :: rest⟩

def operand : List Token → Result Bytes
  | [] => .error ⟨[]⟩
  | t :: rest =>
    if t.kind = .number ∨ t.kind = .identifier then .ok (t.content, rest)
    else .error ⟨t :: rest⟩

def comparison : List Token → Result Bytes
  | [] => .error ⟨[]⟩
  | t :: rest =>
    match Operator.ofKind? t.kind with
    | some ⟨true, op⟩ => .ok (op, rest)
    | _ => .error ⟨t :: rest⟩

structure Condition where
  left : Bytes
  op : Bytes
  right : Bytes
deriving DecidableEq, Repr

/-- The condition of a conditional, up to and with its `THEN`. -/
def condition (tokens : List Token) : Except SyntaxError (Condition × List Token) := do
  let (left, tokens) ← operand tokens
  let (op, tokens) ← comparison tokens
  let (right, tokens) ← operand tokens
  let (_, tokens) ← expect (.keyword .thenPart) tokens
  return (⟨left, op, right⟩, tokens)

theorem length_expect {kind : TokenKind} {tokens rest : List Token} {s : Bytes}
    (h : expect kind tokens = .ok (s, rest)) : rest.length < tokens.length := by
  cases tokens with
  | nil => simp [expect] at h
  | cons t tokens =>
    simp only [expect] at h
    split at h
    · simp only [Except.ok.injEq, Prod.mk.injEq] at h
      simp [← h.2]
    · simp at h

theorem length_operand {tokens rest : List Token} {s : Bytes}
    (h : operand tokens = .ok (s, rest)) : rest.length < tokens.length := by
  cases tokens with
  | nil => simp [operand] at h
  | cons t tokens =>
    simp only [operand] at h
    split at h
    · simp only [Except.ok.injEq, Prod.mk.injEq] at h
      simp [← h.2]
    · simp at h

theorem length_comparison {tokens rest : List Token} {s : Bytes}
    (h : comparison tokens = .ok (s, rest)) : rest.length < tokens.length := by
  cases tokens with
  | nil => simp [comparison] at h
  | cons t tokens =>
    simp only [comparison] at h
    split at h
    · simp only [Except.ok.injEq, Prod.mk.injEq] at h
      simp [← h.2]
    · simp at h

theorem length_printOperand {tokens rest : List Token} {e : Expr}
    (h : printOperand tokens = .ok (e, rest)) : rest.length < tokens.length := by
  cases tokens with
  | nil => simp [printOperand] at h
  | cons t tokens =>
    simp only [printOperand] at h
    split at h <;> simp only [Except.ok.injEq, Prod.mk.injEq, reduceCtorEq] at h <;> simp [← h.2]

theorem length_assignment {tokens rest : List Token} {s : Stmt}
    (h : assignment tokens = .ok (s, rest)) : rest.length < tokens.length := by
  obtain ⟨⟨_, t₁⟩, h₁, h⟩ := except_bind_eq_ok.mp h
  obtain ⟨⟨_, t₂⟩, h₂, h⟩ := except_bind_eq_ok.mp h
  obtain ⟨⟨_, t₃⟩, h₃, h⟩ := except_bind_eq_ok.mp h
  have h₁ := length_expect h₁
  have h₂ := length_expect h₂
  have h₃ := length_expression h₃
  simp only [pure, Except.pure, Except.ok.injEq, Prod.mk.injEq] at h
  simp only [← h.2]
  omega

theorem length_simpleStatement {tokens rest : List Token} {s : Stmt}
    (h : simpleStatement tokens = .ok (s, rest)) : rest.length < tokens.length := by
  cases tokens with
  | nil => simp [simpleStatement] at h
  | cons t tokens =>
    simp only [simpleStatement] at h
    split at h
    · exact Nat.lt_succ_of_lt (length_assignment h)
    · exact length_assignment h
    · obtain ⟨⟨_, t₁⟩, h₁, h⟩ := except_bind_eq_ok.mp h
      simp only [pure, Except.pure, Except.ok.injEq, Prod.mk.injEq] at h
      exact h.2 ▸ Nat.lt_succ_of_lt (length_printOperand h₁)
    · obtain ⟨⟨_, t₁⟩, h₁, h⟩ := except_bind_eq_ok.mp h
      simp only [pure, Except.pure, Except.ok.injEq, Prod.mk.injEq] at h
      exact h.2 ▸ Nat.lt_succ_of_lt (length_expect h₁)
    · simp at h

theorem length_condition {tokens rest : List Token} {c : Condition}
    (h : condition tokens = .ok (c, rest)) : rest.length < tokens.length := by
  obtain ⟨⟨_, t₁⟩, h₁, h⟩ := except_bind_eq_ok.mp h
  obtain ⟨⟨_, t₂⟩, h₂, h⟩ := except_bind_eq_ok.mp h
  obtain ⟨⟨_, t₃⟩, h₃, h⟩ := except_bind_eq_ok.mp h
  obtain ⟨⟨_, t₄⟩, h₄, h⟩ := except_bind_eq_ok.mp h
  have h₁ := length_operand h₁
  have h₂ := length_comparison h₂
  have h₃ := length_operand h₃
  have h₄ := length_expect h₄
  simp only [pure, Except.pure, Except.ok.injEq, Prod.mk.injEq] at h
  simp only [← h.2]
  omega

/-- A conditional that is still open. Once its `ELSE` is read, `thenBody` is what stands before
it. `before` has the statements in front of the conditional, in reverse. -/
structure OpenConditional where
  condition : Condition
  thenBody : Option (List Stmt)
  before : List Stmt

/-- The conditional, ended by its `ENDIF` behind the statements of `last`. -/
def OpenConditional.close (o : OpenConditional) (last : List Stmt) : Stmt :=
  match o.thenBody with
  | none => .conditional o.condition.left o.condition.op o.condition.right last []
  | some thenBody => .conditional o.condition.left o.condition.op o.condition.right thenBody last

/-- Reads statements up to and with the `END` of the program. `outer` holds the open conditionals,
the innermost first, and `done` the statements of the present list, in reverse. -/
def statementsFrom (outer : List OpenConditional) (done : List Stmt) (tokens : List Token) :
    Result (List Stmt) :=
  match tokens with
  | [] => .error ⟨[]⟩
  | t :: rest =>
    match t.kind, outer with
    | .keyword .endBody, [] => .ok (done.reverse, rest)
    | .keyword .elsePart, o :: outer =>
      if o.thenBody.isNone then
        statementsFrom ({ o with thenBody := some done.reverse } :: outer) [] rest
      else .error ⟨t :: rest⟩
    | .keyword .endIf, o :: outer => statementsFrom outer (o.close done.reverse :: o.before) rest
    | .keyword .ifTest, _ =>
      match _ : condition rest with
      | .error e => .error e
      | .ok (c, rest) => statementsFrom (⟨c, none, done⟩ :: outer) [] rest
    | _, _ =>
      match _ : simpleStatement (t :: rest) with
      | .error e => .error e
      | .ok (s, rest) => statementsFrom outer (s :: done) rest
termination_by tokens.length
decreasing_by
  · simp
  · simp
  · exact Nat.lt_succ_of_lt (length_condition ‹_›)
  · exact length_simpleStatement ‹_›

def isType : TokenKind → Bool
  | .keyword .integerType | .keyword .stringType | .identifier => true
  | _ => false

/-- Reads declarations as long as there is a type with a name behind it. -/
def declarationsFrom (done : List Declaration) : List Token → List Declaration × List Token
  | t :: n :: rest =>
    if isType t.kind ∧ n.kind = .identifier then
      declarationsFrom (⟨t.content, n.content⟩ :: done) rest
    else (done.reverse, t :: n :: rest)
  | tokens => (done.reverse, tokens)

def program (tokens : List Token) : Except SyntaxError (Program × List Token) := do
  let (_, tokens) ← expect (.keyword .program) tokens
  let (name, tokens) ← expect .identifier tokens
  let (_, tokens) ← expect (.keyword .declare) tokens
  let (declarations, tokens) := declarationsFrom [] tokens
  let (_, tokens) ← expect (.keyword .beginBody) tokens
  let (body, tokens) ← statementsFrom [] [] tokens
  return (⟨name, declarations, body⟩, tokens)

end Parser

/-- The program that the tokens make up, none of them left over. -/
def Program.ofTokens (tokens : List Token) : Except SyntaxError Program :=
  match Parser.program tokens with
  | .ok (p, []) => .ok p
  | .ok (_, rest) => .error ⟨rest⟩
  | .error e => .error e

inductive SourceError where
  | lex (cause : LexError)
  | syntactic (cause : SyntaxError)
deriving DecidableEq, Repr

def SourceError.message : SourceError → Bytes
  | lex cause => cause.message
  | syntactic cause => cause.message

def Program.parse (source : Bytes) : Except SourceError Program :=
  match Token.scan source with
  | .error e => .error (.lex e)
  | .ok tokens =>
    match Program.ofTokens tokens with
    | .error e => .error (.syntactic e)
    | .ok p => .ok p

end ClassForge
