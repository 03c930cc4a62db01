import ClassForge.Source.Program
import ClassForge.Source.Token

/-! The grammar of programs, as derivations of trees from lists of tokens. It is given without a
parser: an expression has a level for each strength of its operators, and the other parts are written
as they stand in the language. -/

namespace ClassForge.Grammar

/-- The levels of expressions, the loosest first. -/
inductive Level where
  | comparison
  | sum
  | product
  | factor
deriving DecidableEq, Repr

/-- The relation that a token stands for. -/
def relation? : TokenKind → Option Bytes
  | .symbol .greater | .keyword .gt => some "GT"
  | .symbol .less | .keyword .lt => some "LT"
  | .symbol .equal | .keyword .eq => some "EQ"
  | .symbol .unequal | .keyword .neq => some "NEQ"
  | _ => none

def additive? : TokenKind → Option Bytes
  | .symbol .plus => some "+"
  | .symbol .minus => some "-"
  | _ => none

def multiplicative? : TokenKind → Option Bytes
  | .symbol .times => some "*"
  | .symbol .slash => some "/"
  | _ => none

/-- The tokens are an expression of the level. Operators of one level associate to the left, and
parentheses leave no trace in the tree. -/
inductive Expression : Level → List Token → Expr → Prop
  | number {t : Token} (h : t.kind = .number) : Expression .factor [t] (.int t.content)
  | text {t : Token} (h : t.kind = .text) : Expression .factor [t] (.text t.content)
  | name {t : Token} (h : t.kind = .identifier) : Expression .factor [t] (.var t.content)
  | parentheses {l r : Token} {ts : List Token} {e : Expr} (hl : l.kind = .symbol .leftParen)
      (h : Expression .comparison ts e) (hr : r.kind = .symbol .rightParen) :
      Expression .factor (l :: ts ++ [r]) e
  | factor {ts : List Token} {e : Expr} (h : Expression .factor ts e) : Expression .product ts e
  | multiply {ts us : List Token} {t : Token} {op : Bytes} {a b : Expr}
      (ha : Expression .product ts a) (ht : multiplicative? t.kind = some op)
      (hb : Expression .factor us b) : Expression .product (ts ++ t :: us) (.arithmetic op a b)
  | product {ts : List Token} {e : Expr} (h : Expression .product ts e) : Expression .sum ts e
  | add {ts us : List Token} {t : Token} {op : Bytes} {a b : Expr} (ha : Expression .sum ts a)
      (ht : additive? t.kind = some op) (hb : Expression .product us b) :
      Expression .sum (ts ++ t :: us) (.arithmetic op a b)
  | sum {ts : List Token} {e : Expr} (h : Expression .sum ts e) : Expression .comparison ts e
  | compare {ts us : List Token} {t : Token} {op : Bytes} {a b : Expr}
      (ha : Expression .comparison ts a) (ht : relation? t.kind = some op)
      (hb : Expression .sum us b) : Expression .comparison (ts ++ t :: us) (.comparison op a b)

/-- An assignment without its `SET`. -/
inductive Assignment : List Token → Stmt → Prop
  | intro {n a : Token} {ts : List Token} {e : Expr} (hn : n.kind = .identifier)
      (ha : a.kind = .symbol .assign) (he : Expression .comparison ts e) :
      Assignment (n :: a :: ts) (.set n.content e)

/-- An operand of a condition is a number or a name. -/
def IsOperand (t : Token) : Prop :=
  t.kind = .number ∨ t.kind = .identifier

/-- The head of a conditional, from `IF` to `THEN`. -/
inductive Test : List Token → (left op right : Bytes) → Prop
  | intro {i l c r t : Token} {op : Bytes} (hi : i.kind = .keyword .ifTest) (hl : IsOperand l)
      (hc : relation? c.kind = some op) (hr : IsOperand r) (ht : t.kind = .keyword .thenPart) :
      Test [i, l, c, r, t] l.content op r.content

mutual

inductive Statement : List Token → Stmt → Prop
  | assign {ts : List Token} {s : Stmt} (h : Assignment ts s) : Statement ts s
  | set {k : Token} {ts : List Token} {s : Stmt} (hk : k.kind = .keyword .set)
      (h : Assignment ts s) : Statement (k :: ts) s
  | printText {k t : Token} (hk : k.kind = .keyword .print) (ht : t.kind = .text) :
      Statement [k, t] (.print (some (.text t.content)))
  | printName {k t : Token} (hk : k.kind = .keyword .print) (ht : t.kind = .identifier) :
      Statement [k, t] (.print (some (.var t.content)))
  | read {k n : Token} (hk : k.kind = .keyword .read) (hn : n.kind = .identifier) :
      Statement [k, n] (.read n.content)
  | conditional {test ts : List Token} {k : Token} {left op right : Bytes} {body : List Stmt}
      (htest : Test test left op right) (h : Statements ts body) (hk : k.kind = .keyword .endIf) :
      Statement (test ++ ts ++ [k]) (.conditional left op right body [])
  | alternative {test ts us : List Token} {e k : Token} {left op right : Bytes}
      {thenBody elseBody : List Stmt} (htest : Test test left op right)
      (hthen : Statements ts thenBody) (he : e.kind = .keyword .elsePart)
      (helse : Statements us elseBody) (hk : k.kind = .keyword .endIf) :
      Statement (test ++ ts ++ e :: us ++ [k]) (.conditional left op right thenBody elseBody)

inductive Statements : List Token → List Stmt → Prop
  | nil : Statements [] []
  | cons {ts us : List Token} {s : Stmt} {rest : List Stmt} (h : Statement ts s)
      (hrest : Statements us rest) : Statements (ts ++ us) (s :: rest)

end

/-- A type is `INTEGER`, `STRING` or a name. -/
def IsType (t : Token) : Prop :=
  t.kind = .keyword .integerType ∨ t.kind = .keyword .stringType ∨ t.kind = .identifier

inductive Declarations : List Token → List Declaration → Prop
  | nil : Declarations [] []
  | cons {t n : Token} {ts : List Token} {rest : List Declaration} (ht : IsType t)
      (hn : n.kind = .identifier) (h : Declarations ts rest) :
      Declarations (t :: n :: ts) (⟨t.content, n.content⟩ :: rest)

inductive WholeProgram : List Token → Program → Prop
  | intro {p n d b e : Token} {ts us : List Token} {declarations : List Declaration}
      {body : List Stmt} (hp : p.kind = .keyword .program) (hn : n.kind = .identifier)
      (hd : d.kind = .keyword .declare) (hts : Declarations ts declarations)
      (hb : b.kind = .keyword .beginBody) (hus : Statements us body)
      (he : e.kind = .keyword .endBody) :
      WholeProgram (p :: n :: d :: ts ++ b :: us ++ [e]) ⟨n.content, declarations, body⟩

end ClassForge.Grammar
