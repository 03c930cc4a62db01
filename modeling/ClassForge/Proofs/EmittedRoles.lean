import ClassForge.Proofs.StructuralValidity

/-! What the entries of emitted code are there for. Apart from those that construct the input reader,
every entry is of one of a few kinds; a load or a store is for a variable that is declared, and a
jump goes forward. -/

namespace ClassForge

namespace Emission

/-- The instruction at entry `k` in the code of variables and statements. -/
inductive Role (full : Code) (scope : Scope) (k : Nat) : Instruction → Prop
  | pushInt (value : Int32) : Role full scope k (.pushInt value)
  | pushText (text : Bytes) : Role full scope k (.pushText text)
  | load {name : Bytes} {v : Variable} (h : scope.table.lookup name = .ok v) :
      Role full scope k (loadOf v)
  | store {name : Bytes} {v : Variable} (h : scope.table.lookup name = .ok v) :
      Role full scope k (storeOf v)
  | loadReader {slot : Nat} (h : scope.reader = some slot) :
      Role full scope k (.access .aload slot)
  | arithmetic (op : ArithmeticOp) : Role full scope k (.simple (Opcode.arithmetic op).byte)
  | systemOut : Role full scope k (.field Opcode.getstatic.byte systemOut)
  | println (type : VarType) :
      Role full scope k (.invoke (Opcode.invoke .virtual).byte (println type))
  | next (type : VarType) :
      Role full scope k (.invoke (Opcode.invoke .virtual).byte (nextOf type))
  | jump (op : JumpOp) {label : Label} {target : Nat} (h : full.place? label = some target)
      (forward : k < target) : Role full scope k (.jump op label)
  | mark (label : Label) : Role full scope k (.mark label)

/-- Every entry from `i` up to `j` has a role. -/
def RolesAt (full : Code) (scope : Scope) (i j : Nat) : Prop :=
  ∀ k, i ≤ k → k < j → ∃ instruction, full.entries[k]? = some instruction ∧
    Role full scope k instruction

variable {full : Code} {scope : Scope} {i j k : Nat} {instruction : Instruction}

namespace RolesAt

theorem refl (full : Code) (scope : Scope) (i : Nat) : RolesAt full scope i i := by
  intro k hle hlt
  omega

theorem trans (h : RolesAt full scope i k) (h' : RolesAt full scope k j) :
    RolesAt full scope i j := by
  intro l hle hlt
  by_cases hl : l < k
  · exact h l hle hl
  · exact h' l (by omega) hlt

theorem one (hi : full.entries[i]? = some instruction) (hr : Role full scope i instruction) :
    RolesAt full scope i (i + 1) := by
  intro k hle hlt
  obtain rfl : k = i := by omega
  exact ⟨instruction, hi, hr⟩

theorem cons (hi : full.entries[i]? = some instruction) (hr : Role full scope i instruction)
    (h : RolesAt full scope (i + 1) j) : RolesAt full scope i j :=
  (one hi hr).trans h

theorem concat (h : RolesAt full scope i j) (hj : full.entries[j]? = some instruction)
    (hr : Role full scope j instruction) : RolesAt full scope i (j + 1) :=
  h.trans (one hj hr)

theorem fork {relation : Relation} (hf : full.Forks relation i k j) (hk : i < k) (hj : k + 1 < j)
    (first : RolesAt full scope (i + 1) k) (second : RolesAt full scope (k + 2) j) :
    RolesAt full scope i (j + 1) := by
  obtain ⟨holds, done, hjump, hholds, hturn, hmark, hdone, hend⟩ := hf
  have hway := (first.concat hturn (.jump _ hdone (by omega))).concat hmark (.mark holds)
  exact ((hway.trans second).concat hend (.mark done)).cons hjump (.jump _ hholds (by omega))

end RolesAt

theorem ExprAt.roles {e : Expr} (hs : ExprAt full scope.table e i j) : RolesAt full scope i j := by
  induction e generalizing i j with
  | int literal =>
    obtain ⟨value, -, hi, rfl⟩ := hs
    exact .one hi (.pushInt value)
  | text literal =>
    obtain ⟨hi, rfl⟩ := hs
    exact .one hi (.pushText _)
  | var name =>
    obtain ⟨v, hv, hi, rfl⟩ := hs
    exact .one hi (.load hv)
  | arithmetic op left right ihl ihr =>
    obtain ⟨op', k, k', -, hl, hr, hop, rfl⟩ := hs
    exact ((ihl hl).trans (ihr hr)).concat hop (.arithmetic op')
  | comparison op left right ihl ihr =>
    obtain ⟨relation, k, k', -, hl, hr, hfork, hzero, hone, rfl⟩ := hs
    have hvalue : RolesAt full scope k' (k' + 6) :=
      .fork hfork (by omega) (by omega) (.one hzero (.pushInt 0)) (.one hone (.pushInt 1))
    exact ((ihl hl).trans (ihr hr)).trans hvalue

theorem loadOf_integer {v : Variable} (h : v.type = .integer) :
    loadOf v = .access .iload v.slot := by
  simp only [loadOf, h]

theorem OperandAt.roles {text : Bytes} (hs : OperandAt full scope.table text i) :
    RolesAt full scope i (i + 1) := by
  rcases hs with ⟨v, hv, htype, hi⟩ | ⟨e, value, -, -, hi⟩
  · rw [← loadOf_integer htype] at hi
    exact .one hi (.load hv)
  · exact .one hi (.pushInt value)

theorem PrintsAt.roles {value : Instruction} {type : VarType} (hs : PrintsAt full value type i)
    (hv : Role full scope (i + 1) value) : RolesAt full scope i (i + 3) := by
  obtain ⟨hout, hvalue, hcall⟩ := hs
  exact ((RolesAt.one hout .systemOut).concat hvalue hv).concat hcall (.println type)

theorem PrintAt.roles {value : Option Expr} (hs : PrintAt full scope.table value i j) :
    RolesAt full scope i j := by
  match value, hs with
  | some (.var name), ⟨v, hv, hp, hj⟩ =>
    subst hj
    exact hp.roles (.load hv)
  | some (.text literal), ⟨hp, hj⟩ =>
    subst hj
    exact hp.roles (.pushText _)

theorem ReadAt.roles {name : Bytes} (hs : ReadAt full scope name i j) : RolesAt full scope i j := by
  obtain ⟨v, reader, hv, hreader, hprompt, hload, hcall, hstore, rfl⟩ := hs
  have hasks : RolesAt full scope i (i + 3) := hprompt.roles (.pushText _)
  exact ((hasks.concat hload (.loadReader hreader)).concat hcall (.next v.type)).concat hstore
    (.store hv)

mutual

theorem StmtAt.roles : {s : Stmt} → {i j : Nat} → StmtAt full scope s i j → RolesAt full scope i j
  | .set name value, i, j, hs => by
    simp only [StmtAt] at hs
    obtain ⟨v, k, hv, hvalue, hstore, rfl⟩ := hs
    exact hvalue.roles.concat hstore (.store hv)
  | .print value, i, j, hs => by
    simp only [StmtAt] at hs
    exact hs.roles
  | .read name, i, j, hs => by
    simp only [StmtAt] at hs
    exact hs.roles
  | .conditional left op right thenBody elseBody, i, j, hs => by
    simp only [StmtAt] at hs
    obtain ⟨relation, k, k', -, hleft, hright, hfork, helse, hthen, rfl⟩ := hs
    have hk := StmtsAt.le helse
    have hk' := StmtsAt.le hthen
    exact (hleft.roles.trans hright.roles).trans
      (.fork hfork (by omega) (by omega) (StmtsAt.roles helse) (StmtsAt.roles hthen))

theorem StmtsAt.roles : {body : List Stmt} → {i j : Nat} → StmtsAt full scope body i j →
    RolesAt full scope i j
  | [], i, j, hs => by
    simp only [StmtsAt] at hs
    exact hs ▸ .refl full scope i
  | s :: rest, i, j, hs => by
    simp only [StmtsAt] at hs
    obtain ⟨k, hk, hrest⟩ := hs
    exact (StmtAt.roles hk).trans (StmtsAt.roles hrest)

end

theorem InitialisedAt.entry {vs : List Variable} {v : Variable} (hs : InitialisedAt full vs i j)
    (hv : vs[k]? = some v) : full.entries[i + 2 * k]? = some (firstOf v.type) ∧
      full.entries[i + 2 * k + 1]? = some (storeOf v) := by
  induction vs generalizing i k with
  | nil => cases hv
  | cons w rest ih =>
    obtain ⟨hfirst, hstore, hrest⟩ := hs
    cases k with
    | zero =>
      cases hv
      exact ⟨hfirst, hstore⟩
    | succ k =>
      have hentry := ih hrest hv
      rwa [show i + 2 + 2 * k = i + 2 * (k + 1) by omega] at hentry

theorem InitialisedAt.exists_variable {vs : List Variable} (hs : InitialisedAt full vs i j)
    (hle : i ≤ k) (hlt : k < j) : ∃ v ∈ vs,
      full.entries[k]? = some (firstOf v.type) ∨ full.entries[k]? = some (storeOf v) := by
  have hlength := hs.eq
  have hl : (k - i) / 2 < vs.length := by omega
  obtain ⟨hfirst, hstore⟩ := hs.entry (List.getElem?_eq_getElem hl)
  refine ⟨_, List.getElem_mem hl, ?_⟩
  by_cases heven : (k - i) % 2 = 0
  · rw [show i + 2 * ((k - i) / 2) = k by omega] at hfirst
    exact .inl hfirst
  · rw [show i + 2 * ((k - i) / 2) + 1 = k by omega] at hstore
    exact .inr hstore

theorem InitialisedAt.roles {vs : List Variable}
    (hvs : ∀ v ∈ vs, scope.table.lookup v.name = .ok v) (hs : InitialisedAt full vs i j) :
    RolesAt full scope i j := by
  intro k hle hlt
  obtain ⟨v, hv, hfirst | hstore⟩ := hs.exists_variable hle hlt
  · refine ⟨_, hfirst, ?_⟩
    cases v.type with
    | integer => exact .pushInt 0
    | text => exact .pushText []
  · exact ⟨_, hstore, .store (hvs v hv)⟩

/-- The instructions that construct the input reader, in their order. -/
inductive Construction (slot : Nat) : (offset : Nat) → Instruction → Prop
  | new : Construction slot 0 (.type Opcode.new.byte scannerClass)
  | dup : Construction slot 1 (.simple Opcode.dup.byte)
  | systemIn : Construction slot 2 (.field Opcode.getstatic.byte systemIn)
  | scannerInit : Construction slot 3 (.invoke (Opcode.invoke .special).byte scannerInit)
  | store : Construction slot 4 (.access .astore slot)

theorem ReaderAt.construction {slot : Nat} (hs : ReaderAt full slot i j) (hle : i ≤ k)
    (hlt : k < j) : ∃ offset instruction, k = i + offset ∧ full.entries[k]? = some instruction ∧
      Construction slot offset instruction := by
  obtain ⟨hnew, hdup, hin, hinit, hstore, rfl⟩ := hs
  obtain rfl | rfl | rfl | rfl | rfl : k = i ∨ k = i + 1 ∨ k = i + 2 ∨ k = i + 3 ∨ k = i + 4 := by
    omega
  · exact ⟨0, _, rfl, hnew, .new⟩
  · exact ⟨1, _, rfl, hdup, .dup⟩
  · exact ⟨2, _, rfl, hin, .systemIn⟩
  · exact ⟨3, _, rfl, hinit, .scannerInit⟩
  · exact ⟨4, _, rfl, hstore, .store⟩

/-- Each variable takes two entries, and the reader is constructed behind them if there is one. -/
theorem PreludeAt.parts {vs : List Variable} {reader : Option Nat}
    (hs : PreludeAt full vs reader i j) :
    InitialisedAt full vs i (i + 2 * vs.length) ∧
      (∀ {slot : Nat}, reader = some slot → ReaderAt full slot (i + 2 * vs.length) j) ∧
      (reader = none → j = i + 2 * vs.length) := by
  obtain ⟨k, hinit, hreader⟩ := hs
  obtain rfl := hinit.eq
  refine ⟨hinit, fun {slot} hslot => ?_, fun hnone => ?_⟩
  · rw [hslot] at hreader
    exact hreader
  · rw [hnone] at hreader
    exact hreader

end Emission

/-- What the statements of the open body refer to. -/
def Context.scope (context : Context) : Emission.Scope :=
  ⟨context.table, context.reader⟩

namespace Program.Emits

open Emission

variable {p : Program} {writer : ClassWriter} {table : SymbolTable} {context : Context}

theorem sound (h : p.Emits writer table context) : table.Sound :=
  SymbolTable.Sound.empty.declareAll h.declared

theorem lookup_eq (h : p.Emits writer table context) (name : Bytes) :
    context.table.lookup name = table.lookup name := by
  rw [h.scopeTable, lookup_scopeOf]

theorem lookup_declared (h : p.Emits writer table context) {v : Variable}
    (hv : v ∈ table.declared) : context.table.lookup v.name = .ok v := by
  rw [h.lookup_eq, SymbolTable.lookup_eq_ok]
  exact h.sound.found hv

/-- A finished body has what prepares its statements, the statements and the return. -/
theorem layout (h : p.Emits writer table context) :
    ∃ first, PreludeAt context.finished table.declared.toList context.reader 0 first ∧
      StmtsAt context.finished context.scope p.body first context.code.entries.size := by
  obtain ⟨first, hprelude, hbody⟩ := h.shape
  have hscope : scopeOf table p.body = context.scope := by
    rw [Context.scope, h.scopeTable, h.scopeReader]
  rw [hscope] at hprelude hbody
  exact ⟨first, hprelude, hbody⟩

/-- Every entry of a finished body has a role, belongs to the construction of the reader, or is the
return. -/
theorem entry_cases (h : p.Emits writer table context) {k : Nat} {i : Instruction}
    (hi : context.finished.entries[k]? = some i) :
    Role context.finished context.scope k i ∨
      (∃ slot offset, context.reader = some slot ∧ k = 2 * table.declared.size + offset ∧
        Construction slot offset i) ∨
      k = context.code.entries.size ∧ i = .simple Opcode.returnVoid.byte := by
  obtain ⟨first, hprelude, hbody⟩ := h.layout
  obtain ⟨hinit, hreader, hnone⟩ := hprelude.parts
  simp only [Nat.zero_add, Array.length_toList] at hinit hreader hnone
  have hrole {a b : Nat} (hroles : RolesAt context.finished context.scope a b) (hle : a ≤ k)
      (hlt : k < b) : Role context.finished context.scope k i := by
    obtain ⟨i', hi', hr⟩ := hroles k hle hlt
    rw [hi, Option.some.injEq] at hi'
    exact hi' ▸ hr
  by_cases hvariables : k < 2 * table.declared.size
  · have hroles : RolesAt context.finished context.scope 0 (2 * table.declared.size) :=
      hinit.roles fun v hv => h.lookup_declared (by simpa using hv)
    exact .inl (hrole hroles (Nat.zero_le k) hvariables)
  by_cases hbefore : k < first
  · cases hslot : context.reader with
    | none =>
      have := hnone hslot
      omega
    | some slot =>
      obtain ⟨offset, i', hk, hi', hc⟩ := (hreader hslot).construction (by omega) hbefore
      rw [hi, Option.some.injEq] at hi'
      exact .inr (.inl ⟨slot, offset, rfl, hk, hi' ▸ hc⟩)
  by_cases hstatements : k < context.code.entries.size
  · exact .inl (hrole hbody.roles (by omega) hstatements)
  · have hsize := Program.Emits.size_finished context
    have hlt := Code.lt_size hi
    obtain rfl : k = context.code.entries.size := by omega
    rw [Program.Emits.returns, Option.some.injEq] at hi
    exact .inr (.inr ⟨rfl, hi.symm⟩)

end Program.Emits

end ClassForge
