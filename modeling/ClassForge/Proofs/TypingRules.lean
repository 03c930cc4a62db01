import ClassForge.Proofs.TypeChecking

/-! The typing rules, and what a body demands of its variables and expressions in the order in which
it is written. The check accepts the bodies that follow the rules, and of any other body it reports
the first demand that is not met. -/

namespace ClassForge

inductive Expr.HasType (table : SymbolTable) : Expr → VarType → Prop where
  | int (literal : Bytes) : HasType table (.int literal) .integer
  | text (literal : Bytes) : HasType table (.text literal) .text
  | var {name : Bytes} {v : Variable} (h : table.lookup name = .ok v) :
      HasType table (.var name) v.type
  | arithmetic (op : Bytes) {left right : Expr} (hleft : HasType table left .integer)
      (hright : HasType table right .integer) : HasType table (.arithmetic op left right) .integer
  | comparison (op : Bytes) {left right : Expr} (hleft : HasType table left .integer)
      (hright : HasType table right .integer) : HasType table (.comparison op left right) .integer

inductive Stmt.WellTyped (table : SymbolTable) : Stmt → Prop where
  | set {name : Bytes} {value : Expr} {v : Variable} (htarget : table.lookup name = .ok v)
      (hvalue : value.HasType table v.type) : WellTyped table (.set name value)
  | printVar {name : Bytes} {v : Variable} (h : table.lookup name = .ok v) :
      WellTyped table (.print (some (.var name)))
  | printText (literal : Bytes) : WellTyped table (.print (some (.text literal)))
  | read {name : Bytes} {v : Variable} (h : table.lookup name = .ok v) :
      WellTyped table (.read name)
  | conditional {left op right : Bytes} {thenBody elseBody : List Stmt}
      (hleft : Bytes.isIdentifier left = true → (Expr.var left).HasType table .integer)
      (hright : Bytes.isIdentifier right = true → (Expr.var right).HasType table .integer)
      (hthen : ∀ s ∈ thenBody, WellTyped table s) (helse : ∀ s ∈ elseBody, WellTyped table s) :
      WellTyped table (.conditional left op right thenBody elseBody)

/-- What is asked of one place of a body. -/
inductive Demand where
  | declared (name : Bytes)
  | typed (context : Bytes) (e : Expr) (want : VarType)
  /-- The value has the type of the variable. -/
  | assigned (name : Bytes) (value : Expr)
  /-- The operand is a variable or a text literal. -/
  | printable (operand : Option Expr)

/-- The demand is not met, and the error says so: it names the name that is not declared, or the
type that is found and the one that is wanted. -/
def Demand.Breaks (table : SymbolTable) : Demand → ProgramError → Prop
  | declared name, error => (∀ v, table.lookup name ≠ .ok v) ∧ error = .undeclared name
  | typed context e want, error =>
    ∃ got, e.HasType table got ∧ got ≠ want ∧ error = .typeMismatch context want got
  | assigned name value, error => ∃ v got, table.lookup name = .ok v ∧ value.HasType table got ∧
      got ≠ v.type ∧ error = .typeMismatch ("assignment to " ++ name) v.type got
  | printable operand, error => (∀ name, operand ≠ some (.var name)) ∧
      (∀ literal, operand ≠ some (.text literal)) ∧ error = .unprintable (operandText operand)

/-- The demands of an expression: of each operand first its own and then its type. -/
def Expr.demands : Expr → List Demand
  | .int _ | .text _ => []
  | .var name => [.declared name]
  | .arithmetic op left right =>
    left.demands ++ .typed (Expr.arithmetic op left right).render left .integer ::
      (right.demands ++ [.typed (Expr.arithmetic op left right).render right .integer])
  | .comparison op left right =>
    left.demands ++ .typed (Expr.comparison op left right).render left .integer ::
      (right.demands ++ [.typed (Expr.comparison op left right).render right .integer])

def operandDemands (operand : Bytes) : List Demand :=
  if Bytes.isIdentifier operand then
    [.declared operand, .typed "IF condition" (.var operand) .integer]
  else []

mutual

def Stmt.demands : Stmt → List Demand
  | .set name value => .declared name :: (value.demands ++ [.assigned name value])
  | .print (some (.var name)) => [.printable (some (.var name)), .declared name]
  | .print operand => [.printable operand]
  | .read name => [.declared name]
  | .conditional left _ right thenBody elseBody =>
    operandDemands left ++ (operandDemands right ++ (bodyDemands thenBody ++ bodyDemands elseBody))

def bodyDemands : List Stmt → List Demand
  | [] => []
  | s :: rest => s.demands ++ bodyDemands rest

end

namespace Demand

variable {table : SymbolTable} {xs ys : List Demand} {e : ProgramError}

/-- The error is that of the first demand that is not met. -/
def FirstBroken (table : SymbolTable) (demands : List Demand) (e : ProgramError) : Prop :=
  ∃ before d after, demands = before ++ d :: after ∧
    (∀ q ∈ before, ∀ e', ¬ q.Breaks table e') ∧ d.Breaks table e

theorem firstBroken_nil : ¬ FirstBroken table [] e := by
  rintro ⟨before, d, after, heq, -⟩
  simp at heq

theorem firstBroken_cons {d : Demand} : FirstBroken table (d :: xs) e ↔
    d.Breaks table e ∨ (∀ e', ¬ d.Breaks table e') ∧ FirstBroken table xs e := by
  constructor
  · rintro ⟨before, q, after, heq, hbefore, hq⟩
    cases before with
    | nil =>
      cases heq
      exact .inl hq
    | cons p before =>
      rw [List.cons_append] at heq
      cases heq
      exact .inr ⟨hbefore d (by simp), before, q, after, rfl,
        fun p hp => hbefore p (List.mem_cons_of_mem d hp), hq⟩
  · rintro (hd | ⟨hkept, before, q, after, rfl, hbefore, hq⟩)
    · exact ⟨[], d, xs, rfl, by simp, hd⟩
    · refine ⟨d :: before, q, after, rfl, fun p hp => ?_, hq⟩
      rcases List.mem_cons.mp hp with rfl | hp
      · exact hkept
      · exact hbefore p hp

theorem firstBroken_append : FirstBroken table (xs ++ ys) e ↔
    FirstBroken table xs e ∨ (∀ e', ¬ FirstBroken table xs e') ∧ FirstBroken table ys e := by
  induction xs with
  | nil => simp [firstBroken_nil]
  | cons d xs ih =>
    simp only [List.cons_append, firstBroken_cons, ih]
    constructor
    · rintro (hd | ⟨hkept, hxs | ⟨hnone, hys⟩⟩)
      · exact .inl (.inl hd)
      · exact .inl (.inr ⟨hkept, hxs⟩)
      · refine .inr ⟨fun e' he' => ?_, hys⟩
        rcases he' with hd | ⟨-, hxs⟩
        · exact hkept e' hd
        · exact hnone e' hxs
    · rintro ((hd | ⟨hkept, hxs⟩) | ⟨hnone, hys⟩)
      · exact .inl hd
      · exact .inr ⟨hkept, .inl hxs⟩
      · have hkept : ∀ e', ¬ d.Breaks table e' := fun e' hd => hnone e' (.inl hd)
        exact .inr ⟨hkept, .inr ⟨fun e' hxs => hnone e' (.inr ⟨hkept, hxs⟩), hys⟩⟩

/-- The check fails for the first demand that is not met, and otherwise not at all. -/
def Settles {α : Type} (table : SymbolTable) (x : Except ProgramError α)
    (demands : List Demand) : Prop :=
  ∀ e, x = .error e ↔ FirstBroken table demands e

namespace Settles

variable {α β : Type} {x : Except ProgramError α} {f : α → Except ProgramError β}

theorem pure (a : α) : Settles table (Pure.pure a : Except ProgramError α) [] := by
  intro e
  constructor
  · intro h
    cases h
  · intro h
    exact absurd h firstBroken_nil

theorem bind (hx : Settles table x xs) (hf : ∀ a, x = .ok a → Settles table (f a) ys) :
    Settles table (x >>= f) (xs ++ ys) := by
  intro e
  rw [firstBroken_append]
  cases hr : x with
  | error e' =>
    have hfirst := (hx e').mp hr
    constructor
    · intro h
      cases h
      exact .inl hfirst
    · rintro (he | ⟨hnone, -⟩)
      · rw [← hr, (hx e).mpr he]
        rfl
      · exact absurd hfirst (hnone e')
  | ok a =>
    have hnone : ∀ e', ¬ FirstBroken table xs e' := by
      intro e' he'
      rw [hr] at hx
      cases (hx e').mpr he'
    constructor
    · intro h
      exact .inr ⟨hnone, (hf a hr e).mp h⟩
    · rintro (he | ⟨-, he⟩)
      · exact absurd he (hnone e)
      · exact (hf a hr e).mpr he

theorem bind_cons {d : Demand} (hx : Settles table x [d])
    (hf : ∀ a, x = .ok a → Settles table (f a) ys) : Settles table (x >>= f) (d :: ys) :=
  hx.bind hf

theorem single {d : Demand} (h : ∀ e, x = .error e ↔ d.Breaks table e) : Settles table x [d] := by
  intro e
  rw [h e, firstBroken_cons]
  simp [firstBroken_nil]

theorem lookup (table : SymbolTable) (name : Bytes) :
    Settles table (table.lookup name) [.declared name] := by
  apply single
  intro e
  simp only [Breaks, SymbolTable.lookup]
  cases table.byName[name]? with
  | none => simp [eq_comm]
  | some v => simp

end Settles

end Demand

open Demand

variable {table : SymbolTable}

theorem Expr.typeIn_eq_ok_iff {e : Expr} {type : VarType} :
    e.typeIn table = .ok type ↔ e.HasType table type := by
  constructor
  · intro h
    induction e generalizing type with
    | int literal =>
      cases h
      exact .int literal
    | text literal =>
      cases h
      exact .text literal
    | var name =>
      obtain ⟨v, hv, h⟩ := except_bind_eq_ok.mp h
      cases h
      exact .var hv
    | arithmetic op left right ihl ihr =>
      obtain ⟨hl, hr, rfl⟩ := typeIn_operation h
      exact .arithmetic op (ihl hl) (ihr hr)
    | comparison op left right ihl ihr =>
      obtain ⟨hl, hr, rfl⟩ := typeIn_operation h
      exact .comparison op (ihl hl) (ihr hr)
  · intro h
    induction h with
    | int literal => rfl
    | text literal => rfl
    | var hv => exact except_bind_eq_ok.mpr ⟨_, hv, rfl⟩
    | arithmetic op _ _ ihl ihr =>
      rw [Expr.typeIn, ihl, ihr]
      rfl
    | comparison op _ _ ihl ihr =>
      rw [Expr.typeIn, ihl, ihr]
      rfl

theorem Expr.HasType.unique {e : Expr} {type type' : VarType} (h : e.HasType table type)
    (h' : e.HasType table type') : type = type' := by
  rw [← typeIn_eq_ok_iff] at h h'
  rw [h] at h'
  exact Except.ok.inj h'

theorem typed_breaks_iff {context : Bytes} {operand : Expr} {type want : VarType}
    (h : operand.HasType table type) (e : ProgramError) :
    (Demand.typed context operand want).Breaks table e ↔
      type ≠ want ∧ e = .typeMismatch context want type := by
  constructor
  · rintro ⟨got, hgot, hne, he⟩
    rw [hgot.unique h] at hne he
    exact ⟨hne, he⟩
  · rintro ⟨hne, he⟩
    exact ⟨type, h, hne, he⟩

theorem settles_expectInteger {whole operand : Expr} {type : VarType}
    (h : operand.HasType table type) :
    Settles table (Expr.typeIn.expectInteger whole type)
      [.typed whole.render operand .integer] := by
  apply Settles.single
  intro e
  rw [typed_breaks_iff h]
  cases type with
  | integer => simp [Expr.typeIn.expectInteger]
  | text => simp [Expr.typeIn.expectInteger, eq_comm]

theorem settles_operation {whole left right : Expr}
    (hleft : Settles table (left.typeIn table) left.demands)
    (hright : Settles table (right.typeIn table) right.demands) :
    Settles table (do
      Expr.typeIn.expectInteger whole (← left.typeIn table)
      Expr.typeIn.expectInteger whole (← right.typeIn table)
      return VarType.integer)
      (left.demands ++ .typed whole.render left .integer ::
        (right.demands ++ [.typed whole.render right .integer])) := by
  refine hleft.bind fun type htype => ?_
  refine (settles_expectInteger (Expr.typeIn_eq_ok_iff.mp htype)).bind_cons fun _ _ => ?_
  refine hright.bind fun type' htype' => ?_
  exact (settles_expectInteger (Expr.typeIn_eq_ok_iff.mp htype')).bind_cons fun _ _ => .pure _

theorem settles_typeIn (e : Expr) : Settles table (e.typeIn table) e.demands := by
  induction e with
  | int literal => exact .pure _
  | text literal => exact .pure _
  | var name => exact (Settles.lookup table name).bind_cons fun v _ => .pure _
  | arithmetic op left right ihl ihr => exact settles_operation ihl ihr
  | comparison op left right ihl ihr => exact settles_operation ihl ihr

theorem settles_checkOperand (operand : Bytes) :
    Settles table (checkOperand table operand) (operandDemands operand) := by
  by_cases hname : Bytes.isIdentifier operand = true
  · simp only [checkOperand, operandDemands, hname, if_true]
    refine (Settles.lookup table operand).bind fun v hv => Settles.single fun e => ?_
    rw [typed_breaks_iff (.var hv)]
    by_cases htype : v.type = .integer
    · simp [htype, Pure.pure, Except.pure]
    · simp [htype, throw, throwThe, MonadExceptOf.throw, eq_comm]
  · simp only [checkOperand, operandDemands, hname]
    exact .pure _

theorem settles_check_set (name : Bytes) (value : Expr) :
    Settles table ((Stmt.set name value).check table) (Stmt.set name value).demands := by
  simp only [Stmt.check, Stmt.demands]
  refine (Settles.lookup table name).bind_cons fun v hv => ?_
  refine (settles_typeIn value).bind fun type htype => Settles.single fun e => ?_
  have hbreaks : (Demand.assigned name value).Breaks table e ↔
      type ≠ v.type ∧ e = .typeMismatch ("assignment to " ++ name) v.type type := by
    rw [Expr.typeIn_eq_ok_iff] at htype
    constructor
    · rintro ⟨v', got, hv', hgot, hne, he⟩
      rw [hv] at hv'
      cases hv'
      rw [hgot.unique htype] at hne he
      exact ⟨hne, he⟩
    · rintro ⟨hne, he⟩
      exact ⟨v, type, hv, htype, hne, he⟩
  rw [hbreaks]
  by_cases heq : type = v.type
  · simp [heq, Pure.pure, Except.pure]
  · simp [heq, throw, throwThe, MonadExceptOf.throw, eq_comm]

theorem settles_check_print (operand : Option Expr) :
    Settles table ((Stmt.print operand).check table) (Stmt.print operand).demands := by
  have hrefused (shown : Option Expr) (hvar : ∀ name, shown ≠ some (.var name))
      (htext : ∀ literal, shown ≠ some (.text literal)) :
      Settles table (.error (.unprintable (operandText shown)) : Except ProgramError Unit)
        [.printable shown] := by
    apply Settles.single
    intro e
    constructor
    · intro h
      cases h
      exact ⟨hvar, htext, rfl⟩
    · rintro ⟨-, -, rfl⟩
      rfl
  have haccepted {shown : Option Expr} (h : (∃ name, shown = some (.var name)) ∨
      ∃ literal, shown = some (.text literal)) :
      Settles table (.ok () : Except ProgramError Unit) [.printable shown] := by
    apply Settles.single
    intro e
    constructor
    · intro h
      cases h
    · rintro ⟨hvar, htext, -⟩
      rcases h with ⟨name, rfl⟩ | ⟨literal, rfl⟩
      · exact absurd rfl (hvar name)
      · exact absurd rfl (htext literal)
  cases operand with
  | none => exact hrefused none (by simp) (by simp)
  | some shown =>
    cases shown with
    | var name =>
      have hname : Settles table (table.lookup name >>= fun _ => pure ()) [.declared name] :=
        (Settles.lookup table name).bind_cons fun v _ => .pure ()
      exact (haccepted (.inl ⟨name, rfl⟩)).bind_cons fun _ _ => hname
    | text literal => exact haccepted (.inr ⟨literal, rfl⟩)
    | int literal => exact hrefused _ (by simp) (by simp)
    | arithmetic op left right => exact hrefused _ (by simp) (by simp)
    | comparison op left right => exact hrefused _ (by simp) (by simp)

mutual

theorem settles_check : (s : Stmt) → Settles table (s.check table) s.demands
  | .set name value => settles_check_set name value
  | .print operand => settles_check_print operand
  | .read name => (Settles.lookup table name).bind_cons fun _ _ => .pure ()
  | .conditional left op right thenBody elseBody => by
    simp only [Stmt.check, Stmt.demands]
    exact (settles_checkOperand left).bind fun _ _ => (settles_checkOperand right).bind fun _ _ =>
      (settles_checkAll thenBody).bind fun _ _ => settles_checkAll elseBody

theorem settles_checkAll :
    (body : List Stmt) → Settles table (checkAll table body) (bodyDemands body)
  | [] => .pure ()
  | s :: rest => by
    simp only [checkAll, bodyDemands]
    exact (settles_check s).bind fun _ _ => settles_checkAll rest

end

theorem Expr.hasType_var_iff {name : Bytes} {type : VarType} :
    (Expr.var name).HasType table type ↔ ∃ v, table.lookup name = .ok v ∧ v.type = type := by
  constructor
  · intro h
    cases h with
    | var hv => exact ⟨_, hv, rfl⟩
  · rintro ⟨v, hv, rfl⟩
    exact .var hv

theorem checkOperand_eq_ok_iff {operand : Bytes} : checkOperand table operand = .ok () ↔
    (Bytes.isIdentifier operand = true → (Expr.var operand).HasType table .integer) := by
  constructor
  · intro h hname
    exact Expr.hasType_var_iff.mpr (checkOperand_eq_ok h hname)
  · intro h
    by_cases hname : Bytes.isIdentifier operand = true
    · obtain ⟨v, hv, htype⟩ := Expr.hasType_var_iff.mp (h hname)
      simp only [checkOperand, hname, if_true, hv, bind, Except.bind, htype]
      rfl
    · simp only [checkOperand, hname]
      rfl

theorem checkAll_eq_ok {body : List Stmt} (h : ∀ s ∈ body, s.check table = .ok ()) :
    checkAll table body = .ok () := by
  induction body with
  | nil => rfl
  | cons s rest ih =>
    have hrest := ih fun t ht => h t (List.mem_cons_of_mem s ht)
    simp only [checkAll]
    exact except_bind_eq_ok.mpr ⟨(), h s List.mem_cons_self, hrest⟩

theorem check_of_wellTyped {s : Stmt} (h : s.WellTyped table) : s.check table = .ok () := by
  induction h with
  | set htarget hvalue =>
    simp only [Stmt.check, htarget, Expr.typeIn_eq_ok_iff.mpr hvalue, bind, Except.bind]
    simp [pure, Except.pure]
  | printVar hv => exact except_bind_eq_ok.mpr ⟨_, hv, rfl⟩
  | printText literal => rfl
  | read hv => exact except_bind_eq_ok.mpr ⟨_, hv, rfl⟩
  | conditional hleft hright _ _ ihthen ihelse =>
    simp only [Stmt.check]
    exact except_bind_eq_ok.mpr ⟨(), checkOperand_eq_ok_iff.mpr hleft, except_bind_eq_ok.mpr
      ⟨(), checkOperand_eq_ok_iff.mpr hright, except_bind_eq_ok.mpr
        ⟨(), checkAll_eq_ok ihthen, checkAll_eq_ok ihelse⟩⟩⟩

mutual

theorem wellTyped_of_check : (s : Stmt) → s.check table = .ok () → s.WellTyped table
  | .set name value, h => by
    obtain ⟨v, hv, htype⟩ := check_set_eq_ok h
    exact .set hv (Expr.typeIn_eq_ok_iff.mp htype)
  | .print operand, h => by
    rcases check_print_eq_ok h with ⟨name, v, rfl, hv⟩ | ⟨literal, rfl⟩
    · exact .printVar hv
    · exact .printText literal
  | .read name, h => by
    obtain ⟨v, hv⟩ := check_read_eq_ok h
    exact .read hv
  | .conditional left op right thenBody elseBody, h => by
    obtain ⟨hleft, hright, hthen, helse⟩ := check_conditional_eq_ok h
    exact .conditional (checkOperand_eq_ok_iff.mp hleft) (checkOperand_eq_ok_iff.mp hright)
      (wellTyped_of_checkAll thenBody hthen) (wellTyped_of_checkAll elseBody helse)

theorem wellTyped_of_checkAll : (body : List Stmt) → checkAll table body = .ok () →
    ∀ s ∈ body, s.WellTyped table
  | [], _ => by simp
  | s :: rest, h => by
    obtain ⟨hs, hrest⟩ := checkAll_cons_eq_ok h
    have hfirst := wellTyped_of_check s hs
    have hothers := wellTyped_of_checkAll rest hrest
    intro t ht
    rcases List.mem_cons.mp ht with rfl | ht
    · exact hfirst
    · exact hothers t ht

end

/-- The check accepts a body exactly if it follows the typing rules, and it fails with an error
exactly if that is the error of the first demand of the body that is not met. -/
theorem checkAll_decides_typing (table : SymbolTable) (body : List Stmt) :
    (checkAll table body = .ok () ↔ ∀ s ∈ body, s.WellTyped table) ∧
      ∀ e, checkAll table body = .error e ↔ FirstBroken table (bodyDemands body) e := by
  refine ⟨⟨wellTyped_of_checkAll body, fun h => ?_⟩, settles_checkAll body⟩
  apply checkAll_eq_ok
  intro s hs
  exact check_of_wellTyped (h s hs)

end ClassForge
