import ClassForge.Proofs.EmittedRoles

/-! The slots of emitted code. Each variable owns the slot of its number, the input reader the one
behind them, and a slot is only used for values of its owner's type, after it has been stored to. -/

namespace ClassForge

/-- The statement is a READ or holds one at some depth. -/
inductive Stmt.HoldsRead : Stmt → Prop
  | read (name : Bytes) : HoldsRead (.read name)
  | thenBody {left op right : Bytes} {thenBody elseBody : List Stmt} {s : Stmt}
      (hs : s ∈ thenBody) (h : HoldsRead s) :
      HoldsRead (.conditional left op right thenBody elseBody)
  | elseBody {left op right : Bytes} {thenBody elseBody : List Stmt} {s : Stmt}
      (hs : s ∈ elseBody) (h : HoldsRead s) :
      HoldsRead (.conditional left op right thenBody elseBody)

mutual

theorem Stmt.reads_iff : (s : Stmt) → (s.reads = true ↔ s.HoldsRead)
  | .set name value => by
    refine ⟨fun h => ?_, fun h => ?_⟩
    · simp [Stmt.reads] at h
    · cases h
  | .print value => by
    refine ⟨fun h => ?_, fun h => ?_⟩
    · simp [Stmt.reads] at h
    · cases h
  | .read name => by
    simp only [Stmt.reads, true_iff]
    exact .read name
  | .conditional left op right thenBody elseBody => by
    simp only [Stmt.reads, Bool.or_eq_true, anyReads_iff thenBody, anyReads_iff elseBody]
    constructor
    · rintro (⟨s, hs, h⟩ | ⟨s, hs, h⟩)
      · exact .thenBody hs h
      · exact .elseBody hs h
    · intro h
      cases h with
      | thenBody hs h => exact .inl ⟨_, hs, h⟩
      | elseBody hs h => exact .inr ⟨_, hs, h⟩

theorem anyReads_iff : (body : List Stmt) → (anyReads body = true ↔ ∃ s ∈ body, s.HoldsRead)
  | [] => by simp [anyReads]
  | s :: rest => by
    simp only [anyReads, Bool.or_eq_true, Stmt.reads_iff s, anyReads_iff rest, List.mem_cons,
      exists_eq_or_imp]

end

namespace Program

/-- Some statement of the program is a READ. -/
def Reads (p : Program) : Prop :=
  ∃ s ∈ p.body, s.HoldsRead

instance (p : Program) : Decidable p.Reads :=
  decidable_of_iff _ (anyReads_iff p.body)

/-- The slot is that of a variable of the type: the number of its declaration. -/
def Owns (p : Program) (type : VarType) (slot : Int) : Prop :=
  ∃ (k : Nat) (d : Declaration), p.declarations[k]? = some d ∧
    VarType.ofName? d.type = some type ∧ slot = k

end Program

/-- The type of the variables that an access is for. -/
def LocalOp.type : LocalOp → VarType
  | iload | istore => .integer
  | aload | astore => .text

namespace VarType

def loading : VarType → LocalOp
  | integer => .iload
  | text => .aload

def storing : VarType → LocalOp
  | integer => .istore
  | text => .astore

theorem type_loading (type : VarType) : type.loading.type = type := by
  cases type <;> rfl

theorem type_storing (type : VarType) : type.storing.type = type := by
  cases type <;> rfl

end VarType

/-- The variables of a table after declarations are those before and one for each declaration. -/
theorem SymbolTable.declared_of_declareAll {ds : List Declaration} {table table' : SymbolTable}
    (h : table.declareAll ds = .ok () table') :
    table'.declared.size = table.declared.size + ds.length ∧
      (∀ {k : Nat} {v : Variable}, table.declared[k]? = some v → table'.declared[k]? = some v) ∧
      ∀ {k : Nat} {d : Declaration}, ds[k]? = some d →
        ∃ v, table'.declared[table.declared.size + k]? = some v ∧ v.name = d.name ∧
          VarType.ofName? d.type = some v.type := by
  induction ds generalizing table with
  | nil =>
    cases h
    exact ⟨rfl, id, fun hd => by cases hd⟩
  | cons d rest ih =>
    simp only [declareAll] at h
    split at h
    · next v table₁ hdeclare =>
      obtain ⟨-, hname, htype, -, rfl⟩ := declare_eq_ok hdeclare
      obtain ⟨hsize, hkept, hrest⟩ := ih h
      simp only [Array.size_push] at hsize hrest
      refine ⟨by simp only [List.length_cons]; omega, fun {k w} hw => ?_, fun {k d'} hd' => ?_⟩
      · have hlt := (Array.getElem?_eq_some_iff.mp hw).1
        exact hkept (by rw [Array.getElem?_push_lt hlt, ← Array.getElem?_eq_getElem hlt, hw])
      · cases k with
        | zero =>
          cases hd'
          exact ⟨v, hkept (by simp), hname, htype⟩
        | succ k =>
          have hfound := hrest (k := k) hd'
          rwa [show table.declared.size + 1 + k = table.declared.size + (k + 1) by omega] at hfound
    · cases h

namespace Code

/-- A path of the code from its first entry on: the entry that is next, and those that have run, the
latest first. -/
inductive Path (code : Code) : Nat → List Nat → Prop
  | first : Path code 0 []
  | next {k j : Nat} {path next : List Nat} {i : Instruction} (h : Path code k path)
      (hi : code.entries[k]? = some i) (hnext : code.successors k i = .ok next) (hj : j ∈ next) :
      Path code j (k :: path)

/-- A path runs all of a straight start before it gets behind it. -/
theorem Path.mem_of_straight {code : Code} {first k : Nat} {path : List Nat} (h : code.Path k path)
    (hstraight : ∀ l < first, ∃ i, code.entries[l]? = some i ∧ i.flowsOn = true) :
    ∀ l < k, l < first → l ∈ path := by
  induction h with
  | first =>
    intro l hl
    omega
  | @next k j path next i h hi hnext hj ih =>
    intro l hl hfirst
    by_cases hk : k < first
    · obtain ⟨i', hi', hflows⟩ := hstraight k hk
      rw [hi, Option.some.injEq] at hi'
      subst hi'
      rw [successors_of_flowsOn hflows] at hnext
      obtain ⟨k', hk', hn⟩ := except_bind_eq_ok.mp hnext
      cases hn
      obtain ⟨rfl, -⟩ := lt_of_following hk'
      cases List.mem_singleton.mp hj
      by_cases hlast : l = k
      · exact hlast ▸ List.mem_cons_self
      · exact List.mem_cons_of_mem k (ih l (by omega) hfirst)
    · exact List.mem_cons_of_mem k (ih l (by omega) hfirst)

end Code

namespace Emission

variable {full : Code} {i j k : Nat}

/-- The instructions in front of the statements. -/
inductive Prepares : Instruction → Prop
  | value (type : VarType) : Prepares (firstOf type)
  | store (v : Variable) : Prepares (storeOf v)
  | construct {slot offset : Nat} {i : Instruction} (h : Construction slot offset i) : Prepares i

theorem PreludeAt.prepares {vs : List Variable} {reader : Option Nat}
    (hs : PreludeAt full vs reader i j) (hle : i ≤ k) (hlt : k < j) :
    ∃ x, full.entries[k]? = some x ∧ Prepares x := by
  obtain ⟨hinit, hreader, hnone⟩ := hs.parts
  by_cases hvariables : k < i + 2 * vs.length
  · obtain ⟨v, -, hfirst | hstore⟩ := hinit.exists_variable hle hvariables
    · exact ⟨_, hfirst, .value v.type⟩
    · exact ⟨_, hstore, .store v⟩
  cases reader with
  | none =>
    have := hnone rfl
    omega
  | some slot =>
    obtain ⟨offset, x, -, hx, hc⟩ := (hreader rfl).construction (by omega) hlt
    exact ⟨x, hx, .construct hc⟩

theorem Prepares.flowsOn {i : Instruction} (h : Prepares i) : i.flowsOn = true := by
  cases h with
  | value type => exact flowsOn_firstOf type
  | store v => exact flowsOn_storeOf v
  | construct h => cases h <;> rfl

theorem loadOf_eq (v : Variable) : loadOf v = .access v.type.loading v.slot := by
  simp only [loadOf]
  cases v.type <;> rfl

theorem storeOf_eq (v : Variable) : storeOf v = .access v.type.storing v.slot := by
  simp only [storeOf]
  cases v.type <;> rfl

theorem Prepares.isStore {op : LocalOp} {slot : Int} (h : Prepares (.access op slot)) :
    op = .istore ∨ op = .astore := by
  generalize hx : Instruction.access op slot = x at h
  cases h with
  | value type => cases type <;> cases hx
  | store v =>
    rw [storeOf_eq] at hx
    cases hx
    cases v.type with
    | integer => exact .inl rfl
    | text => exact .inr rfl
  | construct h =>
    cases h with
    | store =>
      cases hx
      exact .inr rfl
    | _ => cases hx

end Emission

/-- The instruction takes part in the making of an object. -/
def Instruction.Makes : Instruction → Prop
  | .type _ _ => True
  | .invoke op _ => op = (Opcode.invoke .special).byte
  | _ => False

theorem Emission.Role.not_makes {full : Code} {scope : Scope} {k : Nat} {i : Instruction}
    (h : Role full scope k i) : ¬ i.Makes := by
  have hvirtual : (Opcode.invoke .virtual).byte ≠ (Opcode.invoke .special).byte := by decide
  cases h with
  | load hv =>
    rw [loadOf_eq]
    exact id
  | store hv =>
    rw [storeOf_eq]
    exact id
  | println type => exact hvirtual
  | next type => exact hvirtual
  | _ => exact id

namespace Program.Emits

open Emission

variable {p : Program} {writer : ClassWriter} {table : SymbolTable} {context : Context}

theorem size_declared (h : p.Emits writer table context) :
    table.declared.size = p.declarations.length := by
  simpa using (SymbolTable.declared_of_declareAll h.declared).1

theorem lookup_declaration (h : p.Emits writer table context) {k : Nat} {d : Declaration}
    (hd : p.declarations[k]? = some d) : ∃ type, VarType.ofName? d.type = some type ∧
      table.declared[k]? = some ⟨d.name, type, k⟩ ∧
      context.table.lookup d.name = .ok ⟨d.name, type, k⟩ := by
  obtain ⟨v, hv, hname, htype⟩ := (SymbolTable.declared_of_declareAll h.declared).2.2 hd
  rw [show (({} : SymbolTable).declared.size + k) = k by simp] at hv
  have hslot := h.sound.slots hv
  obtain ⟨name, type, slot⟩ := v
  subst hname
  subst hslot
  exact ⟨type, htype, hv, h.lookup_declared (Array.mem_of_getElem? hv)⟩

theorem owns_of_lookup (h : p.Emits writer table context) {name : Bytes} {v : Variable}
    (hv : context.table.lookup name = .ok v) :
    table.declared[v.slot]? = some v ∧ p.Owns v.type v.slot := by
  rw [h.lookup_eq, SymbolTable.lookup_eq_ok] at hv
  obtain ⟨k, hk, hat⟩ := Array.mem_iff_getElem.mp (h.sound.listed hv).2
  have hdeclared : table.declared[k]? = some v := by rw [Array.getElem?_eq_getElem hk, hat]
  have hslot := h.sound.slots hdeclared
  subst hslot
  have hlength : v.slot < p.declarations.length := h.size_declared ▸ hk
  obtain ⟨d, hd⟩ : ∃ d, p.declarations[v.slot]? = some d := ⟨_, List.getElem?_eq_getElem hlength⟩
  obtain ⟨type, htype, hsame, -⟩ := h.lookup_declaration hd
  rw [hdeclared, Option.some.injEq] at hsame
  have hsametype : v.type = type := congrArg Variable.type hsame
  exact ⟨hdeclared, v.slot, d, hd, hsametype ▸ htype, rfl⟩

theorem reader_eq_some_iff (h : p.Emits writer table context) {slot : Nat} :
    context.reader = some slot ↔ p.Reads ∧ slot = p.declarations.length := by
  rw [h.scopeReader, scopeOf, h.sound.next, h.size_declared]
  by_cases hreads : anyReads p.body = true
  · have hholds : p.Reads := (anyReads_iff p.body).mp hreads
    simp [hreads, hholds, eq_comm]
  · have hnone : ¬ p.Reads := fun hr => hreads ((anyReads_iff p.body).mpr hr)
    simp [hreads, hnone]

/-- An access is for a variable of its type or for the reader. -/
theorem access_cases (h : p.Emits writer table context) {k : Nat} {op : LocalOp} {slot : Int}
    (hi : context.finished.entries[k]? = some (.access op slot)) :
    (∃ v name, context.table.lookup name = .ok v ∧ v.type = op.type ∧ slot = v.slot) ∨
      op.type = .text ∧ ∃ reader : Nat, context.reader = some reader ∧ slot = reader := by
  generalize hx : Instruction.access op slot = x at hi
  rcases h.entry_cases hi with hrole | ⟨reader, offset, hreader, -, hconstruction⟩ | ⟨-, hreturn⟩
  · cases hrole with
    | @load name v hv =>
      rw [loadOf_eq] at hx
      cases hx
      exact .inl ⟨v, name, hv, v.type.type_loading.symm, rfl⟩
    | @store name v hv =>
      rw [storeOf_eq] at hx
      cases hx
      exact .inl ⟨v, name, hv, v.type.type_storing.symm, rfl⟩
    | loadReader hreader =>
      cases hx
      exact .inr ⟨rfl, _, hreader, rfl⟩
    | _ => cases hx
  · cases hconstruction with
    | store =>
      cases hx
      exact .inr ⟨rfl, reader, hreader, rfl⟩
    | _ => cases hx
  · rw [hreturn] at hx
    cases hx

theorem owns_of_access (h : p.Emits writer table context) {k : Nat} {op : LocalOp} {slot : Int}
    (hi : context.finished.entries[k]? = some (.access op slot)) :
    p.Owns op.type slot ∨ op.type = .text ∧ p.Reads ∧ slot = p.declarations.length := by
  rcases h.access_cases hi with ⟨v, name, hv, htype, rfl⟩ | ⟨htype, reader, hreader, rfl⟩
  · rw [← htype]
    exact .inl (h.owns_of_lookup hv).2
  · obtain ⟨hreads, rfl⟩ := h.reader_eq_some_iff.mp hreader
    exact .inr ⟨htype, hreads, rfl⟩

/-- On every path a slot is stored to before it is loaded. -/
theorem stored_before_loaded (h : p.Emits writer table context) {k : Nat} {path : List Nat}
    {op : LocalOp} {slot : Int} (hpath : context.finished.Path k path)
    (hi : context.finished.entries[k]? = some (.access op slot))
    (hload : op = .iload ∨ op = .aload) :
    ∃ j ∈ path, context.finished.entries[j]? = some (.access op.type.storing slot) := by
  obtain ⟨first, hprelude, -⟩ := h.layout
  obtain ⟨hinit, hreader, -⟩ := hprelude.parts
  have hstraight (l : Nat) (hl : l < first) :
      ∃ i, context.finished.entries[l]? = some i ∧ i.flowsOn = true := by
    obtain ⟨i, hl, hprepares⟩ := hprelude.prepares (Nat.zero_le l) hl
    exact ⟨i, hl, hprepares.flowsOn⟩
  -- What prepares the statements loads nothing, so the path has run all of it.
  have hbehind : first ≤ k := by
    by_contra hlt
    obtain ⟨i, hi', hprepares⟩ := hprelude.prepares (Nat.zero_le k) (Nat.lt_of_not_le hlt)
    rw [hi, Option.some.injEq] at hi'
    subst hi'
    rcases hload with rfl | rfl
    · simpa using hprepares.isStore
    · simpa using hprepares.isStore
  have hran (l : Nat) (hl : l < first) : l ∈ path :=
    hpath.mem_of_straight hstraight l (by omega) hl
  rcases h.access_cases hi with ⟨v, name, hv, htype, rfl⟩ | ⟨htype, reader, hslot, rfl⟩
  · have hdeclared := (h.owns_of_lookup hv).1
    have hstore := (hinit.entry (by rw [Array.getElem?_toList]; exact hdeclared)).2
    rw [storeOf_eq, htype] at hstore
    have hle := hprelude.le
    have hlt := (Array.getElem?_eq_some_iff.mp hdeclared).1
    rw [Array.length_toList] at hle
    exact ⟨_, hran _ (by omega), hstore⟩
  · obtain ⟨-, -, -, -, hstore, hfirst⟩ := hreader hslot
    rw [htype]
    exact ⟨_, hran _ (by omega), hstore⟩

/-- The instructions that make an object stand once in the code of a program that reads, in front of
its statements, and not at all in that of another. -/
theorem constructed_iff (h : p.Emits writer table context) (k : Nat) :
    (context.finished.entries[k]? = some (.type Opcode.new.byte scannerClass) ↔
      p.Reads ∧ k = 2 * p.declarations.length) ∧
    (context.finished.entries[k]? = some (.invoke (Opcode.invoke .special).byte scannerInit) ↔
      p.Reads ∧ k = 2 * p.declarations.length + 3) := by
  obtain ⟨first, hprelude, -⟩ := h.layout
  obtain ⟨-, hreader, -⟩ := hprelude.parts
  rw [Array.length_toList, h.size_declared, Nat.zero_add] at hreader
  have hsize := h.size_declared
  have hmakes {i : Instruction} (hi : context.finished.entries[k]? = some i) (hm : i.Makes) :
      p.Reads ∧ ∃ slot offset, k = 2 * p.declarations.length + offset ∧
        Construction slot offset i := by
    rcases h.entry_cases hi with hrole | ⟨slot, offset, hslot, hk, hconstruction⟩ | ⟨-, rfl⟩
    · exact absurd hm hrole.not_makes
    · exact ⟨(h.reader_eq_some_iff.mp hslot).1, slot, offset, by omega, hconstruction⟩
    · exact absurd hm id
  refine ⟨⟨fun hi => ?_, fun hk => ?_⟩, ⟨fun hi => ?_, fun hk => ?_⟩⟩
  · obtain ⟨hreads, slot, offset, hk, hconstruction⟩ := hmakes hi trivial
    cases hconstruction
    exact ⟨hreads, hk⟩
  · obtain ⟨hreads, rfl⟩ := hk
    exact (hreader (h.reader_eq_some_iff.mpr ⟨hreads, rfl⟩)).1
  · obtain ⟨hreads, slot, offset, hk, hconstruction⟩ := hmakes hi rfl
    cases hconstruction
    exact ⟨hreads, hk⟩
  · obtain ⟨hreads, rfl⟩ := hk
    exact (hreader (h.reader_eq_some_iff.mpr ⟨hreads, rfl⟩)).2.2.2.1

/-- The local variable area has a place for each slot and for nothing else, the arguments of the
program apart. -/
theorem maxLocals_eq (h : p.Emits writer table context) :
    context.finished.maxLocals context.table.maxLocals =
      (max 1 (if p.Reads then p.declarations.length + 1 else p.declarations.length) : Nat) := by
  have hnext : context.table.nextSlot =
      if p.Reads then p.declarations.length + 1 else p.declarations.length := by
    rw [h.nextSlot_eq, h.size_declared, ← h.scopeReader]
    by_cases hreads : p.Reads
    · rw [if_pos hreads, h.reader_eq_some_iff.mpr ⟨hreads, rfl⟩]
      rfl
    · have hnone : context.reader = none := by
        rw [Option.eq_none_iff_forall_ne_some]
        intro slot hslot
        exact hreads (h.reader_eq_some_iff.mp hslot).1
      rw [if_neg hreads, hnone]
      rfl
  have hle : context.finished.maxLocals context.table.maxLocals ≤ context.table.maxLocals := by
    rw [Code.maxLocals_le_iff]
    refine ⟨le_rfl, fun {k op slot} hk => ?_⟩
    rcases mem_finished (Array.mem_of_getElem? hk) with hmem | hreturn
    · cases h.operations _ hmem with
      | access op hslot =>
        simp only [SymbolTable.maxLocals]
        omega
    · cases hreturn
  have hge := (Code.maxLocals_le_iff.mp
    (le_refl (context.finished.maxLocals context.table.maxLocals))).1
  rw [le_antisymm hle hge, SymbolTable.maxLocals, hnext]

end Program.Emits

/-- Emitted code keeps to its slots. Variable number `k` owns slot `k`, and the reader, which there
is exactly if the program reads, the slot behind them; it is constructed once, in front of the
statements. Every access is of the type of the owner of its slot, every load has a store before it
on each path, and the local variable area holds the slots and nothing else. -/
theorem emission_keeps_to_slots {ε : Type} {p : Program} {emitter : Emitter}
    (h : p.emit (ε := ε) .idle = .ok () emitter) :
    ∃ writer context first, emitter = .body writer context ∧
      (∀ k d, p.declarations[k]? = some d → ∃ type, VarType.ofName? d.type = some type ∧
        context.table.lookup d.name = .ok ⟨d.name, type, k⟩) ∧
      (∀ slot, context.reader = some slot ↔ p.Reads ∧ slot = p.declarations.length) ∧
      (p.Reads → Emission.ReaderAt context.finished p.declarations.length
        (2 * p.declarations.length) first) ∧
      Emission.StmtsAt context.finished context.scope p.body first context.code.entries.size ∧
      (∀ k, (context.finished.entries[k]? = some (.type Opcode.new.byte Emission.scannerClass) ↔
          p.Reads ∧ k = 2 * p.declarations.length) ∧
        (context.finished.entries[k]? =
            some (.invoke (Opcode.invoke .special).byte Emission.scannerInit) ↔
          p.Reads ∧ k = 2 * p.declarations.length + 3)) ∧
      (∀ (k : Nat) op slot, context.finished.entries[k]? = some (.access op slot) →
        p.Owns op.type slot ∨ op.type = .text ∧ p.Reads ∧ slot = p.declarations.length) ∧
      (∀ k path op slot, context.finished.Path k path →
        context.finished.entries[k]? = some (.access op slot) → op = .iload ∨ op = .aload →
        ∃ j ∈ path, context.finished.entries[j]? = some (.access op.type.storing slot)) ∧
      ∀ pool method pool',
        context.finished.assemble context.table.maxLocals pool = .ok method pool' →
        method.maxLocals =
          (max 1 (if p.Reads then p.declarations.length + 1 else p.declarations.length) : Nat) := by
  obtain ⟨writer, table, context, rfl, hemits⟩ := Program.emit_eq_ok h
  obtain ⟨first, hprelude, hbody⟩ := hemits.layout
  obtain ⟨-, hreader, -⟩ := hprelude.parts
  rw [Array.length_toList, hemits.size_declared, Nat.zero_add] at hreader
  refine ⟨writer, context, first, rfl, fun k d hd => ?_, fun slot => hemits.reader_eq_some_iff,
    fun hreads => hreader (hemits.reader_eq_some_iff.mpr ⟨hreads, rfl⟩), hbody,
    hemits.constructed_iff, fun k op slot hi => hemits.owns_of_access hi,
    fun k path op slot hpath hi hload => hemits.stored_before_loaded hpath hi hload,
    fun pool method pool' hassemble => ?_⟩
  · obtain ⟨type, htype, -, hlookup⟩ := hemits.lookup_declaration hd
    exact ⟨type, htype, hlookup⟩
  · obtain ⟨-, -, -, -, -, -, -, -, -, -, hlocals⟩ := Code.assemble_eq_ok hassemble
    rw [hlocals]
    exact hemits.maxLocals_eq

theorem emission_keeps_to_slots_doubling :
    ∃ writer context, doubling.emit (ε := Empty) .idle = .ok () (.body writer context) ∧
      context.reader = some 2 ∧
      context.finished.entries[4]? = some (.type Opcode.new.byte Emission.scannerClass) ∧
      ∀ pool method pool',
        context.finished.assemble context.table.maxLocals pool = .ok method pool' →
        method.maxLocals = 3 := by
  have hok : outcomeIs (fun _ _ => true) (doubling.emit (ε := Empty) .idle) = true := by cbv
  have hreads : doubling.Reads := by decide
  obtain ⟨u, emitter, hemit, -⟩ := of_outcomeIs hok
  obtain ⟨writer, context, first, rfl, -, hreader, -, -, hmade, -, -, hlocals⟩ :=
    emission_keeps_to_slots hemit
  refine ⟨writer, context, hemit, (hreader 2).mpr ⟨hreads, rfl⟩, (hmade 4).1.mpr ⟨hreads, rfl⟩,
    fun pool method pool' hassemble => ?_⟩
  rw [hlocals pool method pool' hassemble, if_pos hreads]
  rfl

end ClassForge
