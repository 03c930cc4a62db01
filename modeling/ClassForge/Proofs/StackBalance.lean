import ClassForge.Proofs.EmittedProgram
import ClassForge.Proofs.StackAnalysis

/-! The balance of emitted code. On every path the code of an expression leaves one more word on
the stack, and the code of a statement leaves the stack as it was. -/

namespace ClassForge

namespace Code

/-- Every path that runs entry `i` at height `h` gets to entry `j`, at height `h'`, and finds its
operands at each entry before it. -/
inductive Delivers (code : Code) (j h' : Nat) : (i h : Nat) → Prop
  | here : Delivers code j h' j h'
  | step {i h pops pushes : Nat} {instruction : Instruction} {next : List Nat}
      (entry : code.entries[i]? = some instruction)
      (effect : instruction.effect = .ok (pops, pushes)) (room : pops ≤ h)
      (successors : code.successors i instruction = .ok next) (some : next ≠ [])
      (forward : ∀ k ∈ next, i < k)
      (rest : ∀ k ∈ next, Delivers code j h' k (h - pops + pushes)) : Delivers code j h' i h

namespace Delivers

variable {code : Code} {i j k l h h' h'' : Nat}

theorem trans (hd : code.Delivers j h' i h) (hd' : code.Delivers l h'' j h') :
    code.Delivers l h'' i h := by
  induction hd with
  | here => exact hd'
  | step entry effect room successors some forward _ ih =>
    exact .step entry effect room successors some forward ih

theorem le (hd : code.Delivers j h' i h) : i ≤ j := by
  induction hd with
  | here => exact le_rfl
  | step _ _ _ _ some forward _ ih =>
    obtain ⟨k, hk⟩ := List.exists_mem_of_ne_nil _ some
    exact (forward k hk).le.trans (ih k hk)

/-- The height at an entry is fixed by where its paths lead. -/
theorem unique {g : Nat} (hd : code.Delivers j h' i h) (hd' : code.Delivers j h' i g) : h = g := by
  induction hd generalizing g with
  | here =>
    cases hd' with
    | here => rfl
    | step _ _ _ _ some forward rest =>
      obtain ⟨k, hk⟩ := List.exists_mem_of_ne_nil _ some
      have := forward k hk
      have := (rest k hk).le
      omega
  | step entry effect room successors some forward rest ih =>
    obtain ⟨k, hk⟩ := List.exists_mem_of_ne_nil _ some
    cases hd' with
    | here =>
      have := forward k hk
      have := (rest k hk).le
      omega
    | step entry' effect' room' successors' _ _ rest' =>
      rw [entry] at entry'
      cases entry'
      rw [effect] at effect'
      cases effect'
      rw [successors] at successors'
      cases successors'
      have := ih k hk (rest' k hk)
      omega

/-- When every instruction that takes words from the stack takes room in the body, the words at an
entry are no more than the room from there on. -/
theorem add_le {room : Nat → Nat} (hroom : ∀ {i k pops pushes : Nat} {instruction : Instruction},
      code.entries[i]? = some instruction → instruction.effect = .ok (pops, pushes) → i < k →
      pops + room i ≤ pushes + room k)
    (hd : code.Delivers j h' i h) : h + room i ≤ h' + room j := by
  induction hd with
  | here => exact le_rfl
  | step entry effect _ _ some forward _ ih =>
    obtain ⟨k, hk⟩ := List.exists_mem_of_ne_nil _ some
    have := hroom entry effect (forward k hk)
    have := ih k hk
    omega

end Delivers

/-- A sequence whose paths all lead to its return has a height for every entry on them. -/
theorem stackHeights_of_delivers {code : Code} {j bound : Nat}
    (hret : code.entries[j]? = some (.simple Opcode.returnVoid.byte))
    (hd : code.Delivers j 0 0 0)
    (hbound : ∀ {i h : Nat}, code.Delivers j 0 i h → h ≤ bound) :
    ∃ heights deepest, code.stackHeights = .ok (heights, deepest) ∧ deepest ≤ bound := by
  classical
  -- The height at an entry is unique, so the heights of all entries can be chosen at once.
  let assigned (i : Nat) : Option Nat :=
    if hi : ∃ h, code.Delivers j 0 i h then some hi.choose else none
  have hassigned {i h : Nat} : assigned i = some h ↔ code.Delivers j 0 i h := by
    simp only [assigned]
    constructor
    · intro hi
      split at hi
      · next hex => exact Option.some.inj hi ▸ hex.choose_spec
      · cases hi
    · intro hi
      have hex : ∃ h, code.Delivers j 0 i h := ⟨h, hi⟩
      rw [dif_pos hex, hex.choose_spec.unique hi]
  have hcarries {i h : Nat} (hi : assigned i = some h) :
      ∃ out, code.Carries assigned i h out ∧ out ≤ bound := by
    cases hassigned.mp hi with
    | here => exact ⟨0, ⟨_, 0, 0, [], hret, rfl, le_rfl, rfl, rfl, by simp⟩, Nat.zero_le _⟩
    | step entry effect room successors some forward rest =>
      obtain ⟨k, hk⟩ := List.exists_mem_of_ne_nil _ some
      exact ⟨_, ⟨_, _, _, _, entry, effect, room, rfl, successors,
        fun k hk => hassigned.mpr (rest k hk)⟩, hbound (rest k hk)⟩
  refine stackHeights_complete (fun hi => ?_) (hassigned.mpr hd) fun {i h out} hi hout => ?_
  · obtain ⟨out, hout, -⟩ := hcarries hi
    exact ⟨out, hout⟩
  · obtain ⟨out', ⟨_, _, _, _, hentry', heffect', _, rfl, _⟩, hle⟩ := hcarries hi
    obtain ⟨_, _, _, _, hentry, heffect, _, rfl, _⟩ := hout
    rw [hentry'] at hentry
    cases hentry
    rw [heffect'] at heffect
    cases heffect
    exact hle

end Code

namespace Code

variable {full : Code} {i j k h h' : Nat} {relation : Relation}

theorem successors_of_lt {instruction : Instruction} (hf : instruction.flowsOn = true)
    (hi : i + 1 < full.entries.size) : full.successors i instruction = .ok [i + 1] := by
  rw [successors_of_flowsOn hf]
  simp only [following, hi, if_true]
  rfl

theorem destination_eq_ok {label : Label} (hp : full.place? label = some k)
    (hk : k < full.entries.size) : full.destination label = .ok k := by
  simp only [destination, hp, hk, if_true]

theorem lt_size {instruction : Instruction} (hi : full.entries[i]? = some instruction) :
    i < full.entries.size :=
  (Array.getElem?_eq_some_iff.mp hi).1

theorem Delivers.flow {instruction : Instruction} {pops pushes : Nat}
    (hi : full.entries[i]? = some instruction) (he : instruction.effect = .ok (pops, pushes))
    (hf : instruction.flowsOn = true) (hlt : i + 1 < full.entries.size) :
    full.Delivers (i + 1) (h + pushes) i (h + pops) := by
  refine .step hi he (by omega) (successors_of_lt hf hlt) (by simp) (by simp) ?_
  simp only [List.mem_singleton, forall_eq, Nat.add_sub_cancel]
  exact .here

theorem Forks.delivers (hf : full.Forks relation i k j) (hj : j + 1 < full.entries.size)
    (first : full.Delivers k h' (i + 1) h) (second : full.Delivers j h' (k + 2) h) :
    full.Delivers (j + 1) h' i (h + 2) := by
  obtain ⟨holds, done, hjump, hholds, hturn, hmark, hdone, hend⟩ := hf
  have hk := first.le
  have hj' := second.le
  have hclose : full.Delivers (j + 1) h' j h' := .flow hend rfl rfl hj
  have hskip : full.Delivers (k + 2) h (k + 1) h := .flow hmark rfl rfl (by omega)
  have hgoto : full.successors k (.jump .always done) = .ok [j] := by
    simp only [successors, destination_eq_ok hdone (lt_size hend)]
    rfl
  have hways : full.successors i (.jump (.when relation) holds) = .ok [k + 1, i + 1] := by
    simp only [successors, destination_eq_ok hholds (lt_size hmark), following,
      show i + 1 < full.entries.size by omega, if_true]
    rfl
  have htwo : (Instruction.jump (.when relation) holds).effect = .ok (2, 0) := rfl
  have hleave : full.Delivers j h' k h' := by
    refine .step hturn rfl (Nat.zero_le _) hgoto (by simp) ?_ (by simpa using .here)
    simp only [List.mem_singleton, forall_eq]
    omega
  refine .step hjump htwo (by omega) hways (by simp) ?_ ?_
  · simp only [List.mem_cons, List.not_mem_nil, or_false, forall_eq_or_imp, forall_eq]
    omega
  · simp only [List.mem_cons, List.not_mem_nil, or_false, forall_eq_or_imp, forall_eq]
    exact ⟨(hskip.trans second).trans hclose, (first.trans hleave).trans hclose⟩

end Code

namespace Emission

theorem effect_println (type : VarType) :
    (Instruction.invoke (Opcode.invoke .virtual).byte (println type)).effect = .ok (2, 0) := by
  cases type <;> rfl

theorem effect_nextOf (type : VarType) :
    (Instruction.invoke (Opcode.invoke .virtual).byte (nextOf type)).effect = .ok (1, 1) := by
  cases type <;> rfl

theorem effect_loadOf (v : Variable) : (loadOf v).effect = .ok (0, 1) := by
  simp only [loadOf]
  cases v.type <;> rfl

theorem effect_storeOf (v : Variable) : (storeOf v).effect = .ok (1, 0) := by
  simp only [storeOf]
  cases v.type <;> rfl

theorem effect_firstOf (type : VarType) : (firstOf type).effect = .ok (0, 1) := by
  cases type <;> rfl

theorem effect_arithmetic (op : ArithmeticOp) :
    (Instruction.simple (Opcode.arithmetic op).byte).effect = .ok (2, 1) := by
  cases op <;> rfl

theorem flowsOn_loadOf (v : Variable) : (loadOf v).flowsOn = true := by
  simp only [loadOf]
  cases v.type <;> rfl

theorem flowsOn_storeOf (v : Variable) : (storeOf v).flowsOn = true := by
  simp only [storeOf]
  cases v.type <;> rfl

theorem flowsOn_firstOf (type : VarType) : (firstOf type).flowsOn = true := by
  cases type <;> rfl

theorem flowsOn_arithmetic (op : ArithmeticOp) :
    (Instruction.simple (Opcode.arithmetic op).byte).flowsOn = true := by
  cases op <;> rfl

variable {full : Code} {table : SymbolTable} {scope : Scope} {i j : Nat}

theorem ExprAt.lt {e : Expr} (hs : ExprAt full table e i j) : i < j := by
  induction e generalizing i j with
  | int literal =>
    obtain ⟨_, _, _, rfl⟩ := hs
    omega
  | text literal =>
    obtain ⟨_, rfl⟩ := hs
    omega
  | var name =>
    obtain ⟨_, _, _, rfl⟩ := hs
    omega
  | arithmetic op left right ihl ihr =>
    obtain ⟨_, k, k', _, hl, hr, _, rfl⟩ := hs
    have := ihl hl
    have := ihr hr
    omega
  | comparison op left right ihl ihr =>
    obtain ⟨_, k, k', _, hl, hr, _, _, _, rfl⟩ := hs
    have := ihl hl
    have := ihr hr
    omega

/-- The code of an expression leaves one more word on the stack. -/
theorem ExprAt.delivers {e : Expr} (hs : ExprAt full table e i j) (hj : j < full.entries.size)
    (h : Nat) : full.Delivers j (h + 1) i h := by
  induction e generalizing i j h with
  | int literal =>
    obtain ⟨value, -, hi, rfl⟩ := hs
    exact .flow hi rfl rfl hj
  | text literal =>
    obtain ⟨hi, rfl⟩ := hs
    exact .flow hi rfl rfl hj
  | var name =>
    obtain ⟨v, -, hi, rfl⟩ := hs
    exact .flow hi (effect_loadOf v) (flowsOn_loadOf v) hj
  | arithmetic op left right ihl ihr =>
    obtain ⟨op', k, k', -, hl, hr, hop, rfl⟩ := hs
    have hlt := hr.lt
    have hlast : full.Delivers (k' + 1) (h + 1) k' (h + 2) :=
      .flow hop (effect_arithmetic op') (flowsOn_arithmetic op') hj
    exact ((ihl hl (by omega) h).trans (ihr hr (by omega) (h + 1))).trans hlast
  | comparison op left right ihl ihr =>
    obtain ⟨relation, k, k', -, hl, hr, hfork, hzero, hone, rfl⟩ := hs
    have hlt := hr.lt
    have hfirst : full.Delivers (k' + 2) (h + 1) (k' + 1) h :=
      .flow hzero rfl rfl (by omega)
    have hsecond : full.Delivers (k' + 5) (h + 1) (k' + 4) h :=
      .flow hone rfl rfl (by omega)
    exact ((ihl hl (by omega) h).trans (ihr hr (by omega) (h + 1))).trans
      (hfork.delivers hj hfirst hsecond)

theorem OperandAt.delivers {text : Bytes} (hs : OperandAt full table text i)
    (hi : i + 1 < full.entries.size) (h : Nat) : full.Delivers (i + 1) (h + 1) i h := by
  rcases hs with ⟨v, -, -, he⟩ | ⟨e, value, -, -, he⟩
  · exact .flow he rfl rfl hi
  · exact .flow he rfl rfl hi

theorem PrintsAt.delivers {value : Instruction} {type : VarType} (hs : PrintsAt full value type i)
    (he : value.effect = .ok (0, 1)) (hf : value.flowsOn = true)
    (hi : i + 3 < full.entries.size) (h : Nat) : full.Delivers (i + 3) h i h := by
  obtain ⟨hout, hvalue, hcall⟩ := hs
  have h₁ : full.Delivers (i + 1) (h + 1) i h :=
    .flow hout rfl rfl (by omega)
  have h₂ : full.Delivers (i + 2) (h + 2) (i + 1) (h + 1) :=
    Code.Delivers.flow (h := h + 1) hvalue he hf (by omega)
  have h₃ : full.Delivers (i + 3) h (i + 2) (h + 2) :=
    .flow hcall (effect_println type) rfl hi
  exact (h₁.trans h₂).trans h₃

mutual

theorem StmtAt.lt : {s : Stmt} → {i j : Nat} → StmtAt full scope s i j → i < j
  | .set name value, i, j, hs => by
    simp only [StmtAt] at hs
    obtain ⟨_, k, _, hvalue, _, rfl⟩ := hs
    have := hvalue.lt
    omega
  | .print value, i, j, hs => by
    simp only [StmtAt] at hs
    match value, hs with
    | some (.var name), ⟨_, _, _, hj⟩ => omega
    | some (.text literal), ⟨_, hj⟩ => omega
  | .read name, i, j, hs => by
    simp only [StmtAt] at hs
    obtain ⟨_, _, _, _, _, _, _, _, rfl⟩ := hs
    omega
  | .conditional left op right thenBody elseBody, i, j, hs => by
    simp only [StmtAt] at hs
    obtain ⟨_, k, k', _, _, _, _, helse, hthen, rfl⟩ := hs
    have := StmtsAt.le helse
    have := StmtsAt.le hthen
    omega

theorem StmtsAt.le : {body : List Stmt} → {i j : Nat} → StmtsAt full scope body i j → i ≤ j
  | [], i, j, hs => by
    simp only [StmtsAt] at hs
    omega
  | s :: rest, i, j, hs => by
    simp only [StmtsAt] at hs
    obtain ⟨k, hk, hrest⟩ := hs
    have := StmtAt.lt hk
    have := StmtsAt.le hrest
    omega

end

theorem PrintAt.delivers {value : Option Expr} (hs : PrintAt full table value i j)
    (hj : j < full.entries.size) (h : Nat) : full.Delivers j h i h := by
  match value, hs with
  | some (.var name), ⟨v, _, hp, hi⟩ =>
    subst hi
    exact hp.delivers (effect_loadOf v) (flowsOn_loadOf v) hj h
  | some (.text literal), ⟨hp, hi⟩ =>
    subst hi
    exact hp.delivers rfl rfl hj h

theorem ReadAt.delivers {name : Bytes} (hs : ReadAt full scope name i j)
    (hj : j < full.entries.size) (h : Nat) : full.Delivers j h i h := by
  obtain ⟨v, reader, -, -, hprompt, hload, hcall, hstore, rfl⟩ := hs
  have h₁ := hprompt.delivers rfl rfl (by omega) h
  have h₂ : full.Delivers (i + 4) (h + 1) (i + 3) h := .flow hload rfl rfl (by omega)
  have h₃ : full.Delivers (i + 5) (h + 1) (i + 4) (h + 1) :=
    .flow hcall (effect_nextOf v.type) rfl (by omega)
  have h₄ : full.Delivers (i + 6) h (i + 5) (h + 1) :=
    .flow hstore (effect_storeOf v) (flowsOn_storeOf v) hj
  exact ((h₁.trans h₂).trans h₃).trans h₄

mutual

/-- The code of a statement leaves the stack as it was. -/
theorem StmtAt.delivers : {s : Stmt} → {i j : Nat} → StmtAt full scope s i j →
    j < full.entries.size → (h : Nat) → full.Delivers j h i h
  | .set name value, i, j, hs, hj, h => by
    simp only [StmtAt] at hs
    obtain ⟨v, k, -, hvalue, hstore, rfl⟩ := hs
    have hlast : full.Delivers (k + 1) h k (h + 1) :=
      .flow hstore (effect_storeOf v) (flowsOn_storeOf v) hj
    exact (hvalue.delivers (by omega) h).trans hlast
  | .print value, i, j, hs, hj, h => by
    simp only [StmtAt] at hs
    exact hs.delivers hj h
  | .read name, i, j, hs, hj, h => by
    simp only [StmtAt] at hs
    exact hs.delivers hj h
  | .conditional left op right thenBody elseBody, i, j, hs, hj, h => by
    simp only [StmtAt] at hs
    obtain ⟨relation, k, k', -, hleft, hright, hfork, helse, hthen, rfl⟩ := hs
    have hk := StmtsAt.le helse
    have hk' := StmtsAt.le hthen
    exact ((hleft.delivers (by omega) h).trans (hright.delivers (by omega) (h + 1))).trans
      (hfork.delivers hj (StmtsAt.delivers helse (by omega) h)
        (StmtsAt.delivers hthen (by omega) h))

theorem StmtsAt.delivers : {body : List Stmt} → {i j : Nat} → StmtsAt full scope body i j →
    j < full.entries.size → (h : Nat) → full.Delivers j h i h
  | [], i, j, hs, hj, h => by
    simp only [StmtsAt] at hs
    exact hs ▸ .here
  | s :: rest, i, j, hs, hj, h => by
    simp only [StmtsAt] at hs
    obtain ⟨k, hk, hrest⟩ := hs
    have := StmtsAt.le hrest
    exact (StmtAt.delivers hk (by omega) h).trans (StmtsAt.delivers hrest hj h)

end

theorem InitialisedAt.eq {vs : List Variable} (hs : InitialisedAt full vs i j) :
    j = i + 2 * vs.length := by
  induction vs generalizing i with
  | nil => exact hs
  | cons v rest ih =>
    have := ih hs.2.2
    simp only [List.length_cons]
    omega

theorem InitialisedAt.delivers {vs : List Variable} (hs : InitialisedAt full vs i j)
    (hj : j < full.entries.size) (h : Nat) : full.Delivers j h i h := by
  induction vs generalizing i with
  | nil => exact hs ▸ .here
  | cons v rest ih =>
    obtain ⟨hfirst, hstore, hrest⟩ := hs
    have hsize := InitialisedAt.eq hrest
    have h₁ : full.Delivers (i + 1) (h + 1) i h :=
      .flow hfirst (effect_firstOf v.type) (flowsOn_firstOf v.type) (by omega)
    have h₂ : full.Delivers (i + 2) h (i + 1) (h + 1) :=
      .flow hstore (effect_storeOf v) (flowsOn_storeOf v) (by omega)
    exact (h₁.trans h₂).trans (ih hrest)

theorem ReaderAt.delivers {slot : Nat} (hs : ReaderAt full slot i j)
    (hj : j < full.entries.size) (h : Nat) : full.Delivers j h i h := by
  obtain ⟨hnew, hdup, hin, hinit, hstore, rfl⟩ := hs
  have h₁ : full.Delivers (i + 1) (h + 1) i h := .flow hnew rfl rfl (by omega)
  have h₂ : full.Delivers (i + 2) (h + 2) (i + 1) (h + 1) := .flow hdup rfl rfl (by omega)
  have h₃ : full.Delivers (i + 3) (h + 3) (i + 2) (h + 2) :=
    Code.Delivers.flow (h := h + 2) hin rfl rfl (by omega)
  have h₄ : full.Delivers (i + 4) (h + 1) (i + 3) (h + 3) :=
    Code.Delivers.flow (h := h + 1) hinit rfl rfl (by omega)
  have h₅ : full.Delivers (i + 5) h (i + 4) (h + 1) := .flow hstore rfl rfl hj
  exact (((h₁.trans h₂).trans h₃).trans h₄).trans h₅

theorem PreludeAt.le {vs : List Variable} {reader : Option Nat}
    (hs : PreludeAt full vs reader i j) : i + 2 * vs.length ≤ j := by
  obtain ⟨k, hinit, hreader⟩ := hs
  have := hinit.eq
  cases reader with
  | none =>
    simp only at hreader
    omega
  | some slot =>
    obtain ⟨_, _, _, _, _, rfl⟩ := hreader
    omega

theorem PreludeAt.delivers {vs : List Variable} {reader : Option Nat}
    (hs : PreludeAt full vs reader i j) (hj : j < full.entries.size) (h : Nat) :
    full.Delivers j h i h := by
  obtain ⟨k, hinit, hreader⟩ := hs
  cases reader with
  | none =>
    cases hreader
    exact hinit.delivers hj h
  | some slot =>
    have hk : k ≤ j := (ReaderAt.delivers hreader hj h).le
    exact (hinit.delivers (by omega) h).trans (ReaderAt.delivers hreader hj h)

theorem BodyAt.delivers {body : List Stmt} (hs : BodyAt full table body i j)
    (hj : j < full.entries.size) (h : Nat) : full.Delivers j h i h := by
  obtain ⟨k, hprelude, hbody⟩ := hs
  have hk := StmtsAt.le hbody
  exact (hprelude.delivers (by omega) h).trans (hbody.delivers hj h)

end Emission

end ClassForge
