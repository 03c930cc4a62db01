import Mathlib
import ClassForge.Sequencing
import ClassForge.Compile.Typing

/-! What the acceptance of an expression or a statement tells about its parts. The type of an
expression is also what a walk finds that keeps only the type of the expression it visited last. -/

namespace ClassForge

variable {table table' : SymbolTable}

theorem integer_of_expectInteger {whole : Expr} {type : VarType}
    (h : Expr.typeIn.expectInteger whole type = .ok ()) : type = .integer := by
  cases type with
  | integer => rfl
  | text => cases h

theorem typeIn_operation {whole left right : Expr} {type : VarType}
    (h : (do
      Expr.typeIn.expectInteger whole (← left.typeIn table)
      Expr.typeIn.expectInteger whole (← right.typeIn table)
      return VarType.integer) = Except.ok type) :
    left.typeIn table = .ok .integer ∧ right.typeIn table = .ok .integer ∧ type = .integer := by
  obtain ⟨leftType, hleft, h⟩ := except_bind_eq_ok.mp h
  obtain ⟨_, hinteger, h⟩ := except_bind_eq_ok.mp h
  obtain ⟨rightType, hright, h⟩ := except_bind_eq_ok.mp h
  obtain ⟨_, hinteger', h⟩ := except_bind_eq_ok.mp h
  cases integer_of_expectInteger hinteger
  cases integer_of_expectInteger hinteger'
  cases h
  exact ⟨hleft, hright, rfl⟩

theorem typeIn_congr (hlookup : ∀ name, table.lookup name = table'.lookup name) (e : Expr) :
    e.typeIn table = e.typeIn table' := by
  induction e with
  | int digits => rfl
  | text quoted => rfl
  | var name => simp only [Expr.typeIn, hlookup]
  | arithmetic op left right ihl ihr => simp only [Expr.typeIn, ihl, ihr]
  | comparison op left right ihl ihr => simp only [Expr.typeIn, ihl, ihr]

theorem check_set_eq_ok {name : Bytes} {value : Expr}
    (h : (Stmt.set name value).check table = .ok ()) :
    ∃ v, table.lookup name = .ok v ∧ value.typeIn table = .ok v.type := by
  simp only [Stmt.check] at h
  obtain ⟨v, hv, h⟩ := except_bind_eq_ok.mp h
  obtain ⟨type, htype, h⟩ := except_bind_eq_ok.mp h
  split at h
  · cases h
  · next heq => exact ⟨v, hv, by rw [htype, not_not.mp heq]⟩

theorem check_print_eq_ok {operand : Option Expr}
    (h : (Stmt.print operand).check table = .ok ()) :
    (∃ name v, operand = some (.var name) ∧ table.lookup name = .ok v) ∨
      ∃ literal, operand = some (.text literal) := by
  cases operand with
  | none => cases h
  | some e =>
    cases e with
    | var name =>
      simp only [Stmt.check] at h
      obtain ⟨v, hv, -⟩ := except_bind_eq_ok.mp h
      exact .inl ⟨name, v, rfl, hv⟩
    | text literal => exact .inr ⟨literal, rfl⟩
    | _ => cases h

theorem check_read_eq_ok {name : Bytes} (h : (Stmt.read name).check table = .ok ()) :
    ∃ v, table.lookup name = .ok v := by
  simp only [Stmt.check] at h
  obtain ⟨v, hv, -⟩ := except_bind_eq_ok.mp h
  exact ⟨v, hv⟩

theorem checkOperand_eq_ok {operand : Bytes} (h : checkOperand table operand = .ok ())
    (hname : Bytes.isIdentifier operand = true) :
    ∃ v, table.lookup operand = .ok v ∧ v.type = .integer := by
  simp only [checkOperand, hname, if_true] at h
  obtain ⟨v, hv, h⟩ := except_bind_eq_ok.mp h
  split at h
  · cases h
  · next heq => exact ⟨v, hv, not_not.mp heq⟩

theorem check_conditional_eq_ok {left op right : Bytes} {thenBody elseBody : List Stmt}
    (h : (Stmt.conditional left op right thenBody elseBody).check table = .ok ()) :
    checkOperand table left = .ok () ∧ checkOperand table right = .ok () ∧
      checkAll table thenBody = .ok () ∧ checkAll table elseBody = .ok () := by
  simp only [Stmt.check] at h
  obtain ⟨_, hleft, h⟩ := except_bind_eq_ok.mp h
  obtain ⟨_, hright, h⟩ := except_bind_eq_ok.mp h
  obtain ⟨_, hthen, helse⟩ := except_bind_eq_ok.mp h
  exact ⟨hleft, hright, hthen, helse⟩

theorem checkAll_cons_eq_ok {s : Stmt} {rest : List Stmt}
    (h : checkAll table (s :: rest) = .ok ()) : s.check table = .ok () ∧
      checkAll table rest = .ok () := by
  simp only [checkAll] at h
  obtain ⟨_, hs, hrest⟩ := except_bind_eq_ok.mp h
  exact ⟨hs, hrest⟩

/-- A walk over expressions, with the type of the expression visited last. -/
abbrev Walk := EStateM ProgramError VarType

namespace Walk

def lookup (table : SymbolTable) (name : Bytes) : Walk Variable := fun last =>
  match table.lookup name with
  | .ok v => .ok v last
  | .error e => .error e last

def expectInteger (context : Bytes) (visit : Walk Unit) : Walk Unit := do
  visit
  match ← get with
  | .integer => return ()
  | .text => throw (.typeMismatch context .integer .text)

def visit (table : SymbolTable) : Expr → Walk Unit
  | .int _ => set VarType.integer
  | .text _ => set VarType.text
  | .var name => do set (← lookup table name).type
  | .arithmetic op left right => do
    expectInteger (Expr.arithmetic op left right).render (visit table left)
    expectInteger (Expr.arithmetic op left right).render (visit table right)
    set VarType.integer
  | .comparison op left right => do
    expectInteger (Expr.comparison op left right).render (visit table left)
    expectInteger (Expr.comparison op left right).render (visit table right)
    set VarType.integer

/-- What a walk finds out: the type that it has kept, or the error that it has ended with. -/
def found : EStateM.Result ProgramError VarType Unit → Except ProgramError VarType
  | .ok _ type => .ok type
  | .error e _ => .error e

theorem expectInteger_of_ok {x : Walk Unit} {last type : VarType} {u : Unit}
    (h : x last = .ok u type) (context : Bytes) :
    expectInteger context x last = match type with
      | .integer => .ok () .integer
      | .text => .error (.typeMismatch context .integer .text) .text := by
  refine (bind_eq_of_ok h _).trans ?_
  cases type <;> rfl

/-- The walk finds out the same, whatever was visited before. -/
def Finds (x : Walk Unit) (type : Except ProgramError VarType) : Prop :=
  ∀ last, found (x last) = type

theorem Finds.operand {x next : Walk Unit} {whole : Expr} {type rest : Except ProgramError VarType}
    (hx : Finds x type) (hnext : Finds next rest) :
    Finds (do expectInteger whole.render x; next)
      (do Expr.typeIn.expectInteger whole (← type); rest) := by
  intro last
  have hfound := hx last
  cases hvisit : x last with
  | error e kept =>
    rw [hvisit] at hfound
    cases hfound
    have hoperand : expectInteger whole.render x last = .error e kept := bind_eq_of_error hvisit _
    exact congrArg found (bind_eq_of_error hoperand _)
  | ok u t =>
    rw [hvisit] at hfound
    cases hfound
    have hoperand := expectInteger_of_ok hvisit whole.render
    cases t with
    | integer => exact (congrArg found (bind_eq_of_ok hoperand _)).trans (hnext .integer)
    | text => exact congrArg found (bind_eq_of_error hoperand _)

end Walk

/-- The type of an expression is the one that a walk over it keeps last, and its error is the one
that the walk ends with. -/
theorem finds_visit (table : SymbolTable) (e : Expr) :
    (Walk.visit table e).Finds (e.typeIn table) := by
  induction e with
  | int digits => exact fun _ => rfl
  | text quoted => exact fun _ => rfl
  | var name =>
    intro last
    rw [Expr.typeIn]
    cases hv : table.lookup name with
    | ok v =>
      have hlookup : Walk.lookup table name last = .ok v last := by simp only [Walk.lookup, hv]
      exact congrArg Walk.found (bind_eq_of_ok hlookup _)
    | error e =>
      have hlookup : Walk.lookup table name last = .error e last := by simp only [Walk.lookup, hv]
      exact congrArg Walk.found (bind_eq_of_error hlookup _)
  | arithmetic op left right ihl ihr => exact ihl.operand (ihr.operand fun _ => rfl)
  | comparison op left right ihl ihr => exact ihl.operand (ihr.operand fun _ => rfl)

end ClassForge
