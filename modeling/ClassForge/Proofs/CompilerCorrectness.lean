import ClassForge.Proofs.PackagedMain
import ClassForge.Proofs.Simulation
import ClassForge.Proofs.StructuralValidity

/-! A compiled program does what the program means. Its code first gives the variables their values
and makes the input reader, so that the machine agrees with the interpreter when the first statement
is reached. -/

namespace ClassForge

open ClassFile Emission

theorem Datum.type_initial (type : VarType) : (Datum.initial type).type = type := by
  cases type <;> rfl

/-- Declaring variables keeps those that there were, and the first declaration of a name counts. -/
theorem SymbolTable.type_declareAll {ds : List Declaration} {table table' : SymbolTable}
    (h : table.declareAll ds = .ok () table') (name : Bytes) :
    (table'.byName[name]?).map Variable.type = ((table.byName[name]?).map Variable.type).or
      ((ds.find? (·.name = name)).bind fun d => VarType.ofName? d.type) := by
  induction ds generalizing table with
  | nil =>
    cases h
    simp
  | cons d rest ih =>
    simp only [declareAll] at h
    split at h
    · next v table₁ hd =>
      obtain ⟨hnew, hname, htype, -, rfl⟩ := declare_eq_ok hd
      rw [ih h, Std.HashMap.getElem?_insert]
      by_cases heq : d.name = name
      · subst heq
        simp [hnew, htype]
      · simp [heq]
    · cases h

theorem Meaning.initialValues_eq {ds : List Declaration} {table : SymbolTable}
    (h : SymbolTable.declareAll {} ds = .ok () table) (name : Bytes) :
    Meaning.initialValues ds name =
      (table.byName[name]?).map fun v => Datum.initial v.type := by
  have htype := SymbolTable.type_declareAll h name
  simp only [Std.HashMap.getElem?_empty, Option.map_none, Option.none_or] at htype
  have hvalue : Meaning.initialValues ds name =
      ((ds.find? (·.name = name)).bind fun d => VarType.ofName? d.type).map Datum.initial := by
    simp only [Meaning.initialValues, Option.map_eq_bind, Option.bind_assoc]
    rfl
  rw [hvalue, ← htype, Option.map_map]
  rfl

namespace Emission

variable {b : Body} {m : Machine} {i j k : Nat}

theorem firstOf_runs {type : VarType} (hi : b.code.entries[k]? = some (firstOf type))
    (h : b.At k m) : b.Runs k (k + 1) m
      (m.goes (b.start (k + 1)) (m.stack.push (Datum.initial type).value)) := by
  cases type with
  | integer => exact h.pushInt hi
  | text => exact h.pushText hi

theorem slot_lt_of_storeOf {v : Variable} (hi : b.code.entries[k]? = some (storeOf v))
    (h : b.Loaded m) : v.slot < m.locals.size := by
  simp only [storeOf] at hi
  split at hi <;> exact_mod_cast h.slots hi

theorem InitialisedAt.runs {vs : List Variable} (hat : InitialisedAt b.code vs i j)
    (hd : vs.Pairwise (·.slot ≠ ·.slot)) (h : b.At i m) :
    ∃ locals, b.Runs i j m { m with pc := b.start j, locals } ∧
      (∀ v ∈ vs, locals[v.slot]? = some (Datum.initial v.type).value) ∧
      ∀ slot, (∀ v ∈ vs, v.slot ≠ slot) → locals[slot]? = m.locals[slot]? := by
  induction vs generalizing i m with
  | nil =>
    cases hat
    exact ⟨m.locals, by rw [← h.pc]; exact .refl h, by simp, fun _ _ => rfl⟩
  | cons v rest ih =>
    obtain ⟨hfirst, hstore, hrest⟩ := hat
    obtain ⟨hv, hd⟩ := List.pairwise_cons.mp hd
    have hpush := firstOf_runs hfirst h
    have hset := hpush.arrives.storeOf hstore (Datum.type_initial v.type) rfl
    obtain ⟨locals, hruns, hvalues, hothers⟩ := ih hrest hd hset.arrives
    refine ⟨locals, (hpush.trans hset).trans hruns, ?_, fun slot hslot => ?_⟩
    · have hlt := slot_lt_of_storeOf hstore hpush.arrives.loaded
      simp only [List.mem_cons, forall_eq_or_imp]
      refine ⟨?_, hvalues⟩
      rw [hothers v.slot fun w hw => (hv w hw).symm]
      exact Array.getElem?_setIfInBounds_self_of_lt hlt
    · simp only [List.mem_cons, forall_eq_or_imp] at hslot
      rw [hothers slot hslot.2]
      exact Array.getElem?_setIfInBounds_ne hslot.1

theorem ReaderAt.runs {slot : Nat} (hat : ReaderAt b.code slot i j) (h : b.At i m) :
    b.Runs i j m { m with
      pc := b.start j
      locals := m.locals.setIfInBounds slot (.scanner m.scanners.size)
      scanners := m.scanners.push true } := by
  obtain ⟨hnew, hdup, hin, hinit, hstore, rfl⟩ := hat
  have h₁ := h.newScanner hnew
  have h₂ := h₁.arrives.dup hdup rfl
  have h₃ := h₂.arrives.getstatic hin (.inr ⟨rfl, rfl⟩)
  have h₄ := h₃.arrives.scannerInit hinit rfl
  have h₅ := h₄.arrives.store hstore rfl (.inr ⟨rfl, by simp⟩)
  have hruns := (((h₁.trans h₂).trans h₃).trans h₄).trans h₅
  have hscanners : (m.scanners.push false).setIfInBounds m.scanners.size true =
      m.scanners.push true := by
    grind
  rw [← hscanners]
  exact hruns

theorem pairwise_slots {table : SymbolTable} (hs : table.Sound) :
    table.declared.toList.Pairwise (·.slot ≠ ·.slot) := by
  rw [List.pairwise_iff_getElem]
  intro k k' hk hk' hlt
  have h₁ := hs.slots (Array.getElem?_eq_getElem (by simpa using hk))
  have h₂ := hs.slots (Array.getElem?_eq_getElem (by simpa using hk'))
  simp only [Array.getElem_toList]
  omega

theorem separate_scopeOf {table : SymbolTable} (hs : table.Sound) (body : List Stmt) :
    (scopeOf table body).Separate := by
  refine ⟨fun {name v} hv => ?_, fun {name name' v v'} hv hv' heq => ?_,
    fun {name v slot} hv hslot => ?_⟩
  · rw [lookup_scopeOf, SymbolTable.lookup_eq_ok] at hv
    exact (hs.listed hv).1
  · rw [lookup_scopeOf, SymbolTable.lookup_eq_ok] at hv hv'
    obtain ⟨rfl, hmem⟩ := hs.listed hv
    obtain ⟨rfl, hmem'⟩ := hs.listed hv'
    obtain ⟨k, hk, rfl⟩ := Array.mem_iff_getElem.mp hmem
    obtain ⟨k', hk', rfl⟩ := Array.mem_iff_getElem.mp hmem'
    have h₁ := hs.slots (Array.getElem?_eq_getElem hk)
    have h₂ := hs.slots (Array.getElem?_eq_getElem hk')
    have : k = k' := by omega
    subst this
    rfl
  · rw [lookup_scopeOf, SymbolTable.lookup_eq_ok] at hv
    have hlt := hs.slot_lt (hs.listed hv).2
    simp only [scopeOf] at hslot
    split at hslot
    · cases hslot
      omega
    · cases hslot

theorem represents_initialValues {ds : List Declaration} {table table' : SymbolTable}
    {locals : Array Value} (hdeclared : SymbolTable.declareAll {} ds = .ok () table)
    (hlookup : ∀ name, table'.lookup name = table.lookup name)
    (hlocals : ∀ v ∈ table.declared.toList,
      locals[v.slot]? = some (Datum.initial v.type).value) :
    table'.Represents (Meaning.initialValues ds) locals := by
  have hsound := SymbolTable.Sound.empty.declareAll hdeclared
  refine ⟨fun {name v} hv => ?_, fun {name e} he => ?_⟩
  · rw [hlookup, SymbolTable.lookup_eq_ok] at hv
    refine ⟨Datum.initial v.type, ?_, Datum.type_initial _, hlocals v ?_⟩
    · rw [Meaning.initialValues_eq hdeclared, hv]
      rfl
    · exact Array.mem_toList_iff.mpr (hsound.listed hv).2
  · rw [Meaning.initialValues_eq hdeclared, Option.map_eq_none_iff]
    cases hv : table.byName[name]? with
    | none => rfl
    | some v =>
      rw [hlookup, SymbolTable.lookup_eq_ok.mpr hv] at he
      cases he

/-- The machine agrees with the interpreter when the first statement is reached. -/
theorem PreludeAt.runs {ds : List Declaration} {table : SymbolTable} {body : List Stmt}
    {input : Input} (hdeclared : SymbolTable.declareAll {} ds = .ok () table)
    (hat : PreludeAt b.code table.declared.toList (scopeOf table body).reader i j)
    (hinput : m.input = input) (houtput : m.output = {}) (h : b.At i m) :
    ∃ m', b.Runs i j m m' ∧ (scopeOf table body).Agrees
      { values := Meaning.initialValues ds, input } m' := by
  have hsound := SymbolTable.Sound.empty.declareAll hdeclared
  have hseparate := separate_scopeOf hsound body
  obtain ⟨k, hinit, hreader⟩ := hat
  obtain ⟨locals, hruns, hvalues, -⟩ := hinit.runs (pairwise_slots hsound) h
  cases hr : (scopeOf table body).reader with
  | none =>
    simp only [hr] at hreader
    subst hreader
    refine ⟨_, hruns, ?_, fun {slot} hslot => ?_, hinput, houtput⟩
    · exact represents_initialValues hdeclared (lookup_scopeOf table body) hvalues
    · rw [hr] at hslot
      cases hslot
  | some slot =>
    simp only [hr] at hreader
    have hlt : slot < locals.size := by
      obtain ⟨-, -, -, -, hstore, -⟩ := hreader
      exact hruns.arrives.loaded.slots hstore
    refine ⟨_, hruns.trans (hreader.runs hruns.arrives), ?_, fun {slot'} hslot => ?_, hinput,
      houtput⟩
    · refine represents_initialValues hdeclared (lookup_scopeOf table body) fun v hv => ?_
      have hfound : (scopeOf table body).table.lookup v.name = .ok v := by
        rw [lookup_scopeOf, SymbolTable.lookup_eq_ok]
        exact hsound.found (Array.mem_toList_iff.mp hv)
      -- The reader has a slot of its own, so the variable keeps its first value.
      rw [Array.getElem?_setIfInBounds_ne (hseparate.reader hfound hr).symm]
      exact hvalues v hv
    · rw [hr] at hslot
      cases hslot
      exact ⟨m.scanners.size, Array.getElem?_setIfInBounds_self_of_lt hlt, by simp⟩

/-- The code of a whole body does what its statements mean, from their first values on. -/
theorem BodyAt.executes {ds : List Declaration} {table : SymbolTable} {body : List Stmt}
    {input : Input} (hdeclared : SymbolTable.declareAll {} ds = .ok () table)
    (hchecked : checkAll table body = .ok ()) (hat : BodyAt b.code table body i j)
    (hinput : m.input = input) (houtput : m.output = {}) (h : b.At i m) :
    b.Executes (scopeOf table body) i j m
      (Meaning.execAll body { values := Meaning.initialValues ds, input }) := by
  have hsound := SymbolTable.Sound.empty.declareAll hdeclared
  obtain ⟨k, hprelude, hbody⟩ := hat
  obtain ⟨m', hruns, hagrees⟩ := hprelude.runs hdeclared hinput houtput h
  exact .of_runs hruns (StmtsAt.executes (separate_scopeOf hsound body)
    (lookup_scopeOf table body) hbody hchecked hagrees hruns.arrives)

end Emission

/-- A run ended as the program does, and it wrote the same lines. -/
def RunReport.Reflects (report : RunReport) : EStateM.Result Stop Meaning.State Unit → Prop
  | .ok _ s => report.error = none ∧ report.output.lines = s.lines
  | .error stop s =>
    (∃ pc fault, stop.fault? = some fault ∧ report.error = some (.fault pc fault)) ∧
      report.output.lines = s.lines

/-- Once the code has done what is meant, the machine returns. -/
theorem Body.Executes.reflects {b : Body} {scope : Scope} {m : Machine} {j limit : Nat}
    {x : EStateM.Result Stop Meaning.State Unit} (h : b.Executes scope 0 j m x)
    (hreturn : b.code.entries[j]? = some (.simple Opcode.returnVoid.byte)) (hlimit : j < limit) :
    (m.runFrom 0 limit).Reflects x := by
  cases x with
  | ok u s =>
    obtain ⟨m', hruns, hagrees⟩ := h
    obtain ⟨n, hn, hsteps⟩ := hruns.steps
    obtain ⟨rest, rfl⟩ : ∃ rest, limit = n + (rest + 1) := ⟨limit - n - 1, by omega⟩
    obtain ⟨op, hop, hstep, -⟩ := hruns.arrives.loaded.step_simple hruns.arrives.pc hreturn
    cases hop
    have hend : Machine.step m' = .ok true { m' with pc := m'.pc + 1 } :=
      hstep.trans (bind_eq_of_ok (Machine.advance_eq 1 m') _)
    have hinside := hruns.arrives.pc_lt hreturn rfl
    rw [hsteps.runFrom_eq, Machine.runFrom, if_neg (by omega), hend]
    exact ⟨rfl, by simp only [hagrees.output]⟩
  | error stop s =>
    obtain ⟨fault, hfault, n, m', m'', hn, hsteps, hinside, hstep, houtput⟩ := h
    obtain ⟨rest, rfl⟩ : ∃ rest, limit = n + (rest + 1) := ⟨limit - n - 1, by omega⟩
    rw [hsteps.runFrom_eq, Machine.runFrom, if_neg (by omega), hstep]
    exact ⟨⟨m''.pc, fault, hfault, rfl⟩, by simp only [houtput]⟩

namespace Program

variable {p : Program} {writer : ClassWriter} {table : SymbolTable} {context : Context}

theorem Emits.load (h : p.Emits writer table context) {pool : ConstantPool} {method : Method}
    {data : Bytes} {w : ClassWriter}
    (hassemble : context.finished.assemble context.table.maxLocals writer.pool = .ok method pool)
    (hbytes : ClassWriter.bytes
      { writer with pool, methods := writer.methods.push (mainMethod method) } = .ok data w)
    (input : Input) (output : Output) :
    ∃ (b : Body) (m : Machine), b.code = context.finished ∧
      Machine.load data input output = .ok m ∧ b.At 0 m ∧ m.input = input ∧ m.output = output := by
  obtain ⟨hreached, -, constructor, hmethods, -⟩ := Emitter.newClass_eq_ok h.created
  obtain ⟨b, hcode, rfl, hb, hdeepest, -, -, hwithin⟩ :=
    Code.body_of_assemble hreached.sound.valid hassemble
  obtain ⟨-, -, -, -, -, -, -, -, -, -, hmax⟩ := Code.assemble_eq_ok hassemble
  have hshort : ∀ body ∈ some method, body.bytecode.length + 12 < 4294967296 := by
    have := b.assembled.bounded
    rintro body ⟨⟩
    rw [← hb]
    omega
  have hsteps : ClassWriter.Steps { writer with pool := b.pool }
      { writer with pool := b.pool, methods := writer.methods.push (mainMethod method) } := by
    have hstep := ClassWriter.Step.addMethod { writer with pool := b.pool }
      (accPublic ||| accStatic) mainName mainDescriptor _ hshort
    rw [h.addMethod_main_eq] at hstep
    exact .single hstep
  obtain ⟨hsound, hpool⟩ := hsteps.sound (hreached.sound.of_within b.valid hwithin)
  have hmem : mainMethod method ∈ (writer.methods.push (mainMethod method)).toList := by simp
  obtain ⟨constants, hconstants, hload⟩ := hsound.load_bytes ⟨rfl, rfl⟩ hmem hbytes
  obtain ⟨hstack, hlocals⟩ := ClassWriter.not_exceedsFrame hbytes hmem
  obtain ⟨hloaded, -⟩ := b.loaded_machine context.table.maxLocals
    (fun hd => hconstants (hd.mono hpool)) hb.symm hdeepest.le hstack (by rw [hcode, ← hmax]; rfl)
    hlocals input output
  refine ⟨b, _, hcode, (hload input output).2 ?_, ⟨hloaded, ?_, b.first⟩, rfl, rfl⟩
  -- There are two methods, so the count tells both.
  · have : writer.methods.size = 1 := by rw [← Array.length_toList, hmethods, List.length_singleton]
    simp only [Array.size_push]
    omega
  · exact b.assembled.arranged.start_zero.symm

theorem Emits.finish_eq_ok {ε : Type} (h : p.Emits writer table context) {data : Bytes}
    {w : ClassWriter} {context' : Context}
    (hf : Emitter.finish (ε := ε) writer context = (.ok data, w, context')) :
    ∃ method pool,
      context.finished.assemble context.table.maxLocals writer.pool = .ok method pool ∧
      ClassWriter.bytes { writer with pool, methods := writer.methods.push (mainMethod method) } =
        .ok data w ∧ context'.code = context.finished.sealed := by
  simp only [Emitter.finish, h.emit_return] at hf
  cases hassemble : context.finished.assemble context.table.maxLocals writer.pool with
  | error e pool =>
    simp only [hassemble] at hf
    cases hf
  | ok method pool =>
    simp only [hassemble, bind_eq_of_ok (h.addMethod_main_eq pool method)] at hf
    split at hf
    · cases hf
    · next hbytes =>
      cases hf
      exact ⟨method, pool, rfl, hbytes, rfl⟩

end Program

theorem Emitter.close_eq_ok {ε σ : Type} {store : ArtifactSink ε (StateM σ)} {s : σ}
    {writer : ClassWriter} {context : Context} {artifact : Artifact}
    (h : (Emitter.close store (.body writer context) s).1.1 = .ok artifact) :
    ∃ w context', Emitter.finish (ε := ε) writer context = (.ok artifact.bytes, w, context') ∧
      artifact.listing = context'.code.listing := by
  simp only [Emitter.close] at h
  rcases hfinish : Emitter.finish (ε := ε) writer context with ⟨result, w, context'⟩
  cases result with
  | error e =>
    simp only [hfinish] at h
    cases h
  | ok data =>
    simp only [hfinish] at h
    rcases hstored : store context'.program data s with ⟨stored, s₁⟩
    cases stored with
    | error e =>
      simp only [bind, StateT.bind, hstored] at h
      cases h
    | ok path =>
      simp only [bind, StateT.bind, hstored] at h
      cases h
      exact ⟨w, context', rfl, rfl⟩

/-- What a compilation that succeeds went through. -/
theorem Program.compile_stages {ε σ : Type} {store : ArtifactSink ε (StateM σ)} {p : Program}
    {s : σ} {c : Compilation} (h : (p.compile store s).1 = .ok c) :
    ∃ writer table context method pool w,
      p.emit (ε := ε) .idle = .ok () (.body writer context) ∧ p.Emits writer table context ∧
      context.finished.assemble context.table.maxLocals writer.pool = .ok method pool ∧
      ClassWriter.bytes { writer with pool, methods := writer.methods.push (mainMethod method) } =
        .ok c.artifact.bytes w ∧
      c.artifact.listing = context.finished.listing := by
  simp only [compile] at h
  cases hemit : p.emit (ε := ε) .idle with
  | error e emitter =>
    simp only [hemit] at h
    cases h
  | ok u emitter =>
    obtain ⟨writer, table, context, rfl, hemits⟩ := emit_eq_ok hemit
    simp only [hemit] at h
    rcases hclosed : Emitter.close store (.body writer context) s with ⟨⟨result, emitter⟩, s₁⟩
    cases result with
    | error e =>
      simp only [bind, StateT.bind, hclosed] at h
      cases h
    | ok artifact =>
      simp only [bind, StateT.bind, hclosed] at h
      cases h
      obtain ⟨w, context', hfinish, hlisting⟩ := Emitter.close_eq_ok (congrArg (·.1.1) hclosed)
      obtain ⟨method, pool, hassemble, hbytes, hcode⟩ := hemits.finish_eq_ok hfinish
      exact ⟨writer, table, context, method, pool, w, rfl, hemits, hassemble, hbytes,
        by rw [hlisting, hcode]; rfl⟩

theorem Program.compile_eq_ok {ε σ : Type} {store : ArtifactSink ε (StateM σ)} {p : Program}
    {s : σ} {c : Compilation} (h : (p.compile store s).1 = .ok c) :
    ∃ writer table context method pool w, p.Emits writer table context ∧
      context.finished.assemble context.table.maxLocals writer.pool = .ok method pool ∧
      ClassWriter.bytes { writer with pool, methods := writer.methods.push (mainMethod method) } =
        .ok c.artifact.bytes w ∧
      c.artifact.listing = context.finished.listing := by
  obtain ⟨writer, table, context, method, pool, w, -, hstages⟩ := Program.compile_stages h
  exact ⟨writer, table, context, method, pool, w, hstages⟩

/-- A compiled program does what the program means: on every input it writes the same lines and ends
in the same way, within as many steps as its code has entries. -/
theorem compile_preserves_meaning {ε σ : Type} {store : ArtifactSink ε (StateM σ)} {p : Program}
    {s : σ} {c : Compilation} (h : (p.compile store s).1 = .ok c) (input : Input) {limit : Nat}
    (hlimit : c.artifact.listing.length ≤ limit) :
    (runClass c.artifact.bytes input {} limit).Reflects (p.interpret input) := by
  obtain ⟨writer, table, context, method, pool, w, hemits, hassemble, hbytes, hlisting⟩ :=
    Program.compile_eq_ok h
  obtain ⟨b, m, hcode, hload, hat, hinput, houtput⟩ := hemits.load hassemble hbytes input {}
  have hshape := hemits.shape
  have hreturn := Program.Emits.returns context
  rw [← hcode] at hshape hreturn
  have hexecutes := hshape.executes hemits.declared hemits.checked hinput houtput hat
  have hsize := Program.Emits.size_finished context
  rw [hlisting, Code.listing, List.length_map, Array.length_toList] at hlimit
  simp only [runClass, hload]
  exact hexecutes.reflects hreturn (by omega)

/-- Divides seven by a number of the input. -/
def quotient : Program where
  name := "Q"
  declarations := [⟨"INTEGER", "n"⟩]
  body := [.read "n", .set "n" (.arithmetic "/" (.int "7") (.var "n"))]

set_option maxRecDepth 8000 in
theorem compile_preserves_meaning_quotient :
    ∃ c : Compilation,
      (quotient.compile (fun name _ => pure (.ok name) : ArtifactSink Empty (StateM Unit)) ()).1 =
        .ok c ∧
      (runClass c.artifact.bytes { rest := "2\n" } {} c.artifact.listing.length).error = none ∧
      (runClass c.artifact.bytes { rest := "0\n" } {} c.artifact.listing.length).output.lines =
        #[("Please enter an integer value for n: \n" : Bytes)] ∧
      ∃ pc, (runClass c.artifact.bytes { rest := "0\n" } {} c.artifact.listing.length).error =
        some (.fault pc .divisionByZero) := by
  have hok : (match (quotient.compile
      (fun name _ => pure (.ok name) : ArtifactSink Empty (StateM Unit)) ()).1 with
      | .ok _ => true
      | .error _ => false) = true := by cbv
  have htwo : (match quotient.interpret { rest := "2\n" } with
      | .ok _ _ => true
      | .error _ _ => false) = true := by cbv
  have hzero : (match quotient.interpret { rest := "0\n" } with
      | .ok _ _ => false
      | .error stop s => stop == .divisionByZero &&
        s.lines == #[("Please enter an integer value for n: \n" : Bytes)]) = true := by cbv
  split at hok
  · next c hc =>
    have hends := compile_preserves_meaning hc { rest := "2\n" } le_rfl
    have hfails := compile_preserves_meaning hc { rest := "0\n" } le_rfl
    split at htwo
    · next hr =>
      rw [hr] at hends
      split at hzero
      · cases hzero
      · next hr =>
        rw [hr] at hfails
        simp only [Bool.and_eq_true, beq_iff_eq] at hzero
        obtain ⟨rfl, hlines⟩ := hzero
        obtain ⟨⟨pc, _, ⟨⟩, herror⟩, hwritten⟩ := hfails
        exact ⟨c, hc, hends.1, hwritten.trans hlines, pc, herror⟩
    · cases htwo
  · cases hok

end ClassForge
