import ClassForge.Proofs.EmittedCode

/-! The body of a whole program. The variables get their slots in the order of declaration and are
initialised first, the input reader takes the slot behind them, and the statements follow. -/

namespace ClassForge

namespace SymbolTable

/-- Variable `k` of the declarations has slot `k`, and it is found under its name. -/
structure Sound (table : SymbolTable) : Prop where
  listed : ∀ {name : Bytes} {v : Variable}, table.byName[name]? = some v →
    v.name = name ∧ v ∈ table.declared
  found : ∀ {v : Variable}, v ∈ table.declared → table.byName[v.name]? = some v
  slots : ∀ {k : Nat} {v : Variable}, table.declared[k]? = some v → v.slot = k
  next : table.nextSlot = table.declared.size

variable {table table' : SymbolTable} {name type : Bytes} {v : Variable}

theorem Sound.empty : Sound {} := by
  constructor <;> intros <;> simp_all

theorem declare_eq_ok (h : table.declare name type = .ok v table') :
    table.byName[name]? = none ∧ v.name = name ∧ VarType.ofName? type = some v.type ∧
      v.slot = table.nextSlot ∧ table' = {
        byName := table.byName.insert name v
        declared := table.declared.push v
        nextSlot := table.nextSlot + 1 } := by
  simp only [declare] at h
  cases htype : VarType.ofName? type with
  | none =>
    simp only [htype] at h
    cases h
  | some t =>
    simp only [htype] at h
    split at h
    · cases h
    · rename_i hnew
      cases h
      refine ⟨?_, rfl, rfl, rfl, rfl⟩
      rw [Std.HashMap.contains_eq_isSome_getElem?] at hnew
      simpa using hnew

theorem Sound.declare (hs : table.Sound) (h : table.declare name type = .ok v table') :
    table'.Sound := by
  obtain ⟨hnew, hname, -, hslot, rfl⟩ := declare_eq_ok h
  have hfresh {w : Variable} (hw : w ∈ table.declared) : w.name ≠ name := by
    rintro rfl
    rw [hs.found hw] at hnew
    cases hnew
  refine ⟨fun {n w} hw => ?_, fun {w} hw => ?_, fun {k w} hw => ?_, by simp [hs.next]⟩
  · rw [Std.HashMap.getElem?_insert] at hw
    split at hw
    · next heq =>
      cases hw
      exact ⟨hname.trans (by simpa using heq), by simp⟩
    · exact ⟨(hs.listed hw).1, Array.mem_push_of_mem _ (hs.listed hw).2⟩
  · rcases Array.mem_push.mp hw with hw | rfl
    · rw [Std.HashMap.getElem?_insert, if_neg (by simpa using (hfresh hw).symm)]
      exact hs.found hw
    · simp [hname]
  · rw [Array.getElem?_push] at hw
    split at hw
    · next heq =>
      cases hw
      rw [hslot, hs.next, heq]
    · exact hs.slots hw

theorem Sound.declareAll {ds : List Declaration} (hs : table.Sound)
    (h : table.declareAll ds = .ok () table') : table'.Sound := by
  induction ds generalizing table with
  | nil =>
    cases h
    exact hs
  | cons d rest ih =>
    simp only [SymbolTable.declareAll] at h
    split at h
    · next hd => exact ih (hs.declare hd) h
    · cases h

theorem lookup_eq_ok : table.lookup name = .ok v ↔ table.byName[name]? = some v := by
  simp only [lookup]
  split <;> simp_all

theorem Sound.slot_lt (hs : table.Sound) (hv : v ∈ table.declared) : v.slot < table.nextSlot := by
  obtain ⟨k, hk, rfl⟩ := Array.mem_iff_getElem.mp hv
  rw [hs.slots (Array.getElem?_eq_getElem hk), hs.next]
  exact hk

end SymbolTable

namespace Emission

/-- What the statements of a body refer to, once its variables are declared. -/
def scopeOf (table : SymbolTable) (body : List Stmt) : Scope :=
  if anyReads body then ⟨table.reserve.2, some table.nextSlot⟩ else ⟨table, none⟩

/-- Entries `i` to `j` initialise the variables and construct the reader if there is one. -/
def PreludeAt (full : Code) (vs : List Variable) (reader : Option Nat) (i j : Nat) : Prop :=
  ∃ k, InitialisedAt full vs i k ∧
    match reader with
    | some slot => ReaderAt full slot k j
    | none => j = k

def BodyAt (full : Code) (table : SymbolTable) (body : List Stmt) (i j : Nat) : Prop :=
  ∃ k, PreludeAt full table.declared.toList (scopeOf table body).reader i k ∧
    StmtsAt full (scopeOf table body) body k j

theorem lookup_scopeOf (table : SymbolTable) (body : List Stmt) (name : Bytes) :
    (scopeOf table body).table.lookup name = table.lookup name := by
  simp only [scopeOf]
  split <;> rfl

theorem bounds_scopeOf {table : SymbolTable} (hs : table.Sound) (body : List Stmt) :
    (scopeOf table body).Bounds (scopeOf table body).table.nextSlot := by
  have hle : table.nextSlot ≤ (scopeOf table body).table.nextSlot := by
    simp only [scopeOf, SymbolTable.reserve]
    split <;> simp
  refine ⟨fun {name v} hv => ?_, fun {reader} hr => ?_⟩
  · rw [lookup_scopeOf, SymbolTable.lookup_eq_ok] at hv
    exact (hs.slot_lt (hs.listed hv).2).trans_le hle
  · simp only [scopeOf, SymbolTable.reserve] at hr ⊢
    by_cases hreads : anyReads body = true
    · simp only [hreads, if_true, Option.some.injEq] at hr ⊢
      omega
    · simp only [hreads] at hr
      cases hr

/-- Constructs the input reader if it has a slot. -/
def constructReader? (reader : Option Nat) : Emitting Unit :=
  match reader with
  | some slot => constructReader slot
  | none => pure ()

theorem prelude_emitted {slots : Nat} {vs : List Variable} {code code₁ code₂ : Code}
    {reader : Option Nat} (hb : ∀ v ∈ vs, v.slot < slots)
    (hr : ∀ {slot : Nat}, reader = some slot → slot < slots)
    (h₁ : initialiseAll vs code = .ok () code₁)
    (h₂ : constructReader? reader code₁ = .ok () code₂) :
    Emitted slots code code₂ fun full => PreludeAt full vs reader := by
  cases reader with
  | none =>
    cases h₂
    exact (initialiseAll_emitted hb h₁).imp fun full i j hi => ⟨j, hi, rfl⟩
  | some slot =>
    exact ((initialiseAll_emitted hb h₁).trans (constructReader_emitted (hr rfl) h₂)).imp
      fun full i j hi => hi

end Emission

theorem Context.onCode_eq_ok {α : Type} {x : Emission.Emitting α} {ctx ctx' : Context} {a : α}
    (h : Context.onCode x ctx = .ok a ctx') :
    ∃ code, x ctx.code = .ok a code ∧ ctx' = { ctx with code } := by
  simp only [onCode] at h
  split at h
  · next code hx =>
    cases h
    exact ⟨code, hx, rfl⟩
  · cases h

theorem Context.initialise_eq_ok {body : List Stmt} {ctx ctx' : Context} {u : Unit}
    (hreader : ctx.reader = none) (h : Context.initialise body ctx = .ok u ctx') :
    ∃ code₁ code₂, Emission.initialiseAll ctx.table.declared.toList ctx.code = .ok () code₁ ∧
      Emission.constructReader? (Emission.scopeOf ctx.table body).reader code₁ = .ok () code₂ ∧
      ctx' = ⟨ctx.program, (Emission.scopeOf ctx.table body).table,
        (Emission.scopeOf ctx.table body).reader, code₂⟩ := by
  simp only [Context.initialise] at h
  obtain ⟨_, ctx₁, hget, h⟩ := ok_of_bind_eq_ok h
  cases hget
  obtain ⟨_, ctx₂, hinit, h⟩ := ok_of_bind_eq_ok h
  obtain ⟨code₁, hcode, rfl⟩ := Context.onCode_eq_ok hinit
  refine ⟨code₁, ?_⟩
  by_cases hreads : anyReads body = true
  · simp only [hreads, if_true] at h
    obtain ⟨slot, ctx₃, hslot, h⟩ := ok_of_bind_eq_ok h
    cases hslot
    obtain ⟨code₂, hnew, rfl⟩ := Context.onCode_eq_ok h
    simp only [Emission.scopeOf, hreads, if_true]
    exact ⟨code₂, hcode, hnew, rfl⟩
  · simp only [hreads] at h
    cases h
    simp only [Emission.scopeOf, hreads]
    exact ⟨code₁, hcode, rfl, by simp [hreader]⟩

/-- How a context comes about: the class is begun, the variables are declared, the body is checked,
and its code is emitted. -/
structure Program.Emits (p : Program) (writer : ClassWriter) (table : SymbolTable)
    (context : Context) : Prop where
  created : Emitter.newClass p.name = .ok writer
  declared : SymbolTable.declareAll {} p.declarations = .ok () table
  checked : checkAll table p.body = .ok ()
  program : context.program = p.name
  scopeTable : context.table = (Emission.scopeOf table p.body).table
  scopeReader : context.reader = (Emission.scopeOf table p.body).reader
  emitted : Emission.Emitted context.table.nextSlot {} context.code
    fun full => Emission.BodyAt full table p.body

theorem Emitter.onContext_eq_ok {ε α : Type} {x : Context.Step α} {emitter emitter' : Emitter}
    {context : Context} {u : PUnit} (hc : emitter.context? = some context)
    (h : (discard (Emitter.onContext (ε := ε) x) : EStateM _ _ _) emitter = .ok u emitter') :
    ∃ a context', x context = .ok a context' ∧ emitter' = emitter.setContext context' := by
  cases hx : x context with
  | ok a context' =>
    have hok : Emitter.onContext (ε := ε) x emitter =
        .ok (some a) (emitter.setContext context') := by
      simp only [onContext, hc, hx]
    simp only [discard, Functor.discard, Functor.mapConst, EStateM.map, Function.comp, hok] at h
    cases h
    exact ⟨a, context', rfl, rfl⟩
  | error e context' =>
    have herr : Emitter.onContext (ε := ε) x emitter =
        .error (.emission e) (emitter.setContext context') := by
      simp only [onContext, hc, hx]
    simp only [discard, Functor.discard, Functor.mapConst, EStateM.map, Function.comp, herr] at h
    cases h

theorem Context.declareAll_eq_ok {ds : List Declaration} {ctx ctx' : Context} {u : Unit}
    (h : Context.declareAll ds ctx = .ok u ctx') :
    ∃ table, ctx.table.declareAll ds = .ok () table ∧ ctx' = { ctx with table } := by
  simp only [declareAll] at h
  split at h
  · next _ table hd =>
    cases h
    exact ⟨table, hd, rfl⟩
  · cases h

theorem Context.check_eq_ok {body : List Stmt} {ctx ctx' : Context} {u : Unit}
    (h : Context.check body ctx = .ok u ctx') : checkAll ctx.table body = .ok () ∧ ctx' = ctx := by
  simp only [check] at h
  split at h
  · next hc =>
    cases h
    exact ⟨hc, rfl⟩
  · cases h

theorem Program.emit_eq_ok {ε : Type} {p : Program} {u : Unit} {emitter : Emitter}
    (h : p.emit (ε := ε) .idle = .ok u emitter) :
    ∃ writer table context, emitter = .body writer context ∧ p.Emits writer table context := by
  simp only [Program.emit] at h
  obtain ⟨_, opened, hstart, h⟩ := ok_of_bind_eq_ok h
  simp only [Emitter.start] at hstart
  cases hclass : Emitter.newClass p.name with
  | error e =>
    simp only [hclass] at hstart
    cases hstart
  | ok writer =>
    simp only [hclass] at hstart
    cases hstart
    obtain ⟨_, checked, hcheck, h⟩ := ok_of_bind_eq_ok h
    obtain ⟨_, context₁, hdeclare, rfl⟩ := Emitter.onContext_eq_ok rfl hcheck
    obtain ⟨_, context₂, hforget, hdeclare⟩ := ok_of_bind_eq_ok hdeclare
    cases hforget
    obtain ⟨_, context₃, hdeclare, hcheck⟩ := ok_of_bind_eq_ok hdeclare
    obtain ⟨table, hdeclared, rfl⟩ := Context.declareAll_eq_ok hdeclare
    obtain ⟨hchecked, rfl⟩ := Context.check_eq_ok hcheck
    obtain ⟨_, body, hopen, h⟩ := ok_of_bind_eq_ok h
    cases hopen
    obtain ⟨_, context₄, hemit, rfl⟩ := Emitter.onContext_eq_ok rfl h
    obtain ⟨_, context₅, hinit, hemit⟩ := ok_of_bind_eq_ok hemit
    obtain ⟨code₁, code₂, hvars, hreader, rfl⟩ := Context.initialise_eq_ok rfl hinit
    obtain ⟨_, _, hget, hemit⟩ := ok_of_bind_eq_ok hemit
    cases hget
    obtain ⟨code, hbody, rfl⟩ := Context.onCode_eq_ok hemit
    have hsound : table.Sound := SymbolTable.Sound.empty.declareAll hdeclared
    have hbounds := Emission.bounds_scopeOf hsound p.body
    have hprelude := Emission.prelude_emitted (fun v hv => ?_) hbounds.2 hvars hreader
    · refine ⟨writer, table, _, rfl, hclass, hdeclared, hchecked, rfl, rfl, rfl, ?_⟩
      exact hprelude.trans (Emission.statements_emitted hbounds hbody)
    · have hfound : (Emission.scopeOf table p.body).table.lookup v.name = .ok v := by
        rw [Emission.lookup_scopeOf, SymbolTable.lookup_eq_ok]
        exact hsound.found (by simpa using hv)
      exact hbounds.1 hfound

end ClassForge
