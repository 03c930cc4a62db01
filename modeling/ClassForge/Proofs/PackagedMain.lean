import ClassForge.Proofs.SafeExecution
import ClassForge.Proofs.WriterRun

/-! A class that is written with a main method, and the machine that it is loaded into. -/

namespace ClassForge

open ClassFile

/-- The method is the entry point of a program. -/
def WrittenMethod.IsMain (m : WrittenMethod) : Prop :=
  m.name = mainName ∧ m.descriptor = mainDescriptor

/-- The machine at the start of a method, over the constants of its class. -/
def WrittenMethod.machine (m : WrittenMethod) (constants : Array Constant) (input : Input)
    (output : Output) : Machine where
  constants
  code := m.body.bytecode.toArray
  maxStack := (m.body.maxStack % 65536).toNat
  locals := Machine.initialLocals (m.body.maxLocals % 65536).toNat
  input
  output

namespace ClassWriter

/-- Under the names of the entry point only the entry point is found. -/
theorem Sound.eq_main {w : ClassWriter} (hw : w.Sound) {main m : WrittenMethod}
    (hmain : main.IsMain) (hmem : main ∈ w.methods.toList) (hm : m ∈ w.methods.toList)
    (hname : m.readBack.name = mainName) (hdescriptor : m.readBack.descriptor = mainDescriptor) :
    m = main := by
  have hname' : m.name = mainName := Utf8.eq_of_repair_isAscii (by decide) hname
  have hdescriptor' : m.descriptor = mainDescriptor :=
    Utf8.eq_of_repair_isAscii (by decide) hdescriptor
  exact List.inj_on_of_nodup_map hw.distinct hm hmem (by
    rw [hname', hdescriptor', hmain.1, hmain.2])

theorem readBack_main {main : WrittenMethod} (h : main.IsMain) :
    main.readBack.name = mainName ∧ main.readBack.descriptor = mainDescriptor := by
  simp only [WrittenMethod.readBack, h.1, h.2]
  exact ⟨Utf8.repair_of_isAscii (by decide), Utf8.repair_of_isAscii (by decide)⟩

section Loading

variable {w : ClassWriter} {main : WrittenMethod} {constants : Array Constant}

theorem Sound.lookup_main_eq (hw : w.Sound) (hmain : main.IsMain) (hmem : main ∈ w.methods.toList)
    {m : ReadMethod}
    (h : (w.readBack constants).lookupMethod mainName mainDescriptor = .ok m) :
    m = main.readBack := by
  simp only [lookupMethod, readBack] at h
  split at h
  · next found hfind =>
    cases h
    have hp := Array.find?_some hfind
    have hin := Array.mem_of_find?_eq_some hfind
    simp only [Bool.and_eq_true, beq_iff_eq] at hp
    simp only [List.mem_toArray, List.mem_map] at hin
    obtain ⟨m', hm', rfl⟩ := hin
    rw [hw.eq_main hmain hmem (List.mem_of_mem_take hm') hp.1 hp.2]
  · cases h

/-- The entry point is found if the count of the class tells all its methods. -/
theorem Sound.lookup_main (hw : w.Sound) (hmain : main.IsMain) (hmem : main ∈ w.methods.toList)
    (hle : w.methods.size ≤ 65535) :
    (w.readBack constants).lookupMethod mainName mainDescriptor = .ok main.readBack := by
  have hall : w.methods.toList.take (w.methods.size % 65536) = w.methods.toList := by
    rw [Nat.mod_eq_of_lt (by omega), ← Array.length_toList, List.take_length]
  have hmem' : main.readBack ∈ (w.readBack constants).methods := by
    simp only [readBack, hall, List.mem_toArray, List.mem_map]
    exact ⟨main, hmem, rfl⟩
  obtain ⟨found, hfind⟩ : ∃ found, (w.readBack constants).methods.find?
      (fun m => m.name == mainName && m.descriptor == mainDescriptor) = some found := by
    rw [← Option.isSome_iff_exists, Array.find?_isSome]
    exact ⟨main.readBack, hmem', by simp [readBack_main hmain]⟩
  have hlookup : (w.readBack constants).lookupMethod mainName mainDescriptor = .ok found := by
    simp only [lookupMethod, hfind]
  rw [hlookup, hw.lookup_main_eq hmain hmem hlookup]

theorem load_of_lookup {data : Bytes} (hparse : ClassFile.parse data = .ok (w.readBack constants))
    (hlookup : (w.readBack constants).lookupMethod mainName mainDescriptor = .ok main.readBack)
    (input : Input) (output : Output) :
    Machine.load data input output = .ok (main.machine constants input output) := by
  simp only [Machine.load, hparse, hlookup]
  rfl

/-- A class with an entry point is loaded at its start, and it is loaded unless it has more methods
than its count can tell. -/
theorem Sound.load_bytes {w' : ClassWriter} {data : Bytes} (hw : w.Sound)
    (hmain : main.IsMain) (hmem : main ∈ w.methods.toList) (h : bytes w = .ok data w') :
    ∃ constants, (∀ {i : Nat} {c : Constant}, w.pool.Denotes i c →
        constantAt constants i = .ok c.repaired) ∧
      ∀ input output, (∀ m, Machine.load data input output = .ok m →
          m = main.machine constants input output) ∧
        (w.methods.size ≤ 65535 →
          Machine.load data input output = .ok (main.machine constants input output)) := by
  obtain ⟨hwithin, constants, hconstants, -, hparse, hparse'⟩ := hw.parse_bytes h
  refine ⟨constants, fun hd => hconstants (hd.mono hwithin), fun input output =>
    ⟨fun m hm => ?_, fun hle => ?_⟩⟩
  · cases hc : ClassFile.parse data with
    | error e => simp [Machine.load, hc] at hm
    | ok c =>
      cases hparse c hc
      cases hlookup : (w.readBack constants).lookupMethod mainName mainDescriptor with
      | error e => simp [Machine.load, hc, hlookup] at hm
      | ok found =>
        cases hw.lookup_main_eq hmain hmem hlookup
        rw [load_of_lookup hc hlookup] at hm
        exact (Except.ok.inj hm).symm
  · exact load_of_lookup (hparse' hle) (hw.lookup_main hmain hmem hle) input output

end Loading

theorem not_exceedsFrame {w w' : ClassWriter} {data : Bytes} {m : WrittenMethod}
    (h : bytes w = .ok data w') (hm : m ∈ w.methods.toList) :
    m.body.maxStack ≤ 65535 ∧ m.body.maxLocals ≤ 65535 := by
  obtain ⟨-, hframe, -⟩ := bytes_eq_ok h
  have := List.find?_eq_none.mp hframe m hm
  simp only [exceedsFrame, Bool.or_eq_true, decide_eq_true_eq, not_or] at this
  omega

end ClassWriter

/-- The machine that an assembled entry point is loaded into runs its body. -/
theorem Body.loaded_machine (b : Body) (least : Int) {main : WrittenMethod}
    {constants : Array Constant}
    (hconstants : ∀ {i : Nat} {c : Constant}, b.pool.Denotes i c →
      constantAt constants i = .ok c.repaired)
    (hbytecode : main.body.bytecode = b.bytecode) (hstack : (b.deepest : Int) ≤ main.body.maxStack)
    (hstack' : main.body.maxStack ≤ 65535) (hlocals : b.code.maxLocals least ≤ main.body.maxLocals)
    (hlocals' : main.body.maxLocals ≤ 65535) (input : Input) (output : Output) :
    b.Loaded (main.machine constants input output) ∧
      b.AtInstruction (main.machine constants input output) := by
  refine ⟨⟨congrArg _ hbytecode, hconstants, ?_, fun {k op slot} hk => ?_⟩, ?_⟩
  · simp only [WrittenMethod.machine]
    omega
  · have hslot := (Code.maxLocals_le_iff.mp hlocals).2 hk
    simp only [WrittenMethod.machine, Machine.initialLocals, Array.size_setIfInBounds,
      Array.size_replicate]
    obtain ⟨p, data, -, -, -, -, -, -, -, -, hencode⟩ := b.assembled.locate hk
    have hnonneg : 0 ≤ slot := hencode.1
    omega
  · obtain ⟨k, i, hi, hmark, hstart, hk⟩ := b.skip_marks 0 b.first
    exact ⟨k, i, hi, hmark, (hstart.trans b.assembled.arranged.start_zero).symm, hk⟩

theorem Machine.load_error {data : Bytes} {input : Input} {output : Output} {e : RunError}
    (h : Machine.load data input output = .error e) : ¬ e.IsStructural := by
  simp only [Machine.load] at h
  split at h
  · cases h
    exact id
  split at h
  · cases h
    exact id
  split at h
  · cases h
    exact id
  · cases h

/-- Assembled code that is packaged as the entry point of a class keeps to the heights that were
computed for it, whatever its input is and however long it runs. The class is loaded unless it has
more methods than its count can tell. -/
theorem static_checks_suffice {w w₁ w₂ : ClassWriter} {pool : ConstantPool} {code : Code}
    {least : Int} {method : Method} {main : WrittenMethod} {data : Bytes} (hw : w.Reached)
    (hbasic : ∀ i ∈ code.entries.toList, i.IsBasic)
    (hassemble : code.assemble least w.pool = .ok method pool)
    (hsteps : ClassWriter.Steps { w with pool } w₁) (hmem : main ∈ w₁.methods.toList)
    (hmain : main.IsMain) (hbytecode : main.body.bytecode = method.bytecode)
    (hstack : method.maxStack ≤ main.body.maxStack)
    (hlocals : method.maxLocals ≤ main.body.maxLocals) (hbytes : w₁.bytes = .ok data w₂) :
    ∃ placements heights deepest,
      code.layout w.pool = .ok (placements, method.bytecode.length) pool ∧
      code.stackHeights = .ok (heights, deepest) ∧ ∀ input output,
        (w₁.methods.size ≤ 65535 → ∃ m, Machine.load data input output = .ok m) ∧
        (∀ m m', Machine.load data input output = .ok m → m.Reaches m' →
          ∃ (k : Nat) (i : Instruction) (p : Placement), code.entries[k]? = some i ∧
            i.isMark = false ∧ placements[k]? = some p ∧
            p.position = m'.pc ∧ heights[k]? = some (some m'.stack.size)) ∧
        ∀ limit e, (runClass data input output limit).error = some e → ¬ e.IsStructural := by
  obtain ⟨b, rfl, rfl, hb, hdeepest, hheights, hlayout, hwithin⟩ :=
    Code.body_of_assemble hw.sound.valid hassemble
  obtain ⟨-, -, -, -, -, -, -, -, -, -, hmax⟩ := Code.assemble_eq_ok hassemble
  obtain ⟨hsound, hpool⟩ := hsteps.sound (hw.sound.of_within b.valid hwithin)
  obtain ⟨constants, hconstants, hload⟩ := hsound.load_bytes hmain hmem hbytes
  obtain ⟨hstack', hlocals'⟩ := ClassWriter.not_exceedsFrame hbytes hmem
  have hbasic' : ∀ {k : Nat} {i : Instruction}, b.code.entries[k]? = some i → i.IsBasic :=
    fun hi => hbasic _ (List.mem_of_getElem? (by simpa using hi))
  have hloaded := fun input output => b.loaded_machine least
    (fun hd => hconstants (hd.mono hpool)) (hbytecode.trans hb.symm) (by omega) hstack'
    (hmax ▸ hlocals) hlocals' input output
  refine ⟨b.placements, b.heights, b.deepest, hb ▸ hlayout, hheights, fun input output => ?_⟩
  obtain ⟨hl, hat⟩ := hloaded input output
  obtain ⟨heq, hall⟩ := hload input output
  refine ⟨fun hle => ⟨_, hall hle⟩, fun m m' hm hreaches => ?_, fun limit e he => ?_⟩
  · rw [heq m hm] at hreaches
    obtain ⟨-, k, i, hi, hmark, hpc, hk⟩ := hl.reaches hbasic' hat hreaches
    obtain ⟨p, data, hp, hposition, -⟩ := b.assembled.locate hi
    exact ⟨k, i, p, hi, hmark, hp, hposition.trans hpc.symm, Heights.at?_eq_some.mp hk⟩
  · cases hm : Machine.load data input output with
    | error e' =>
      rw [runClass, hm] at he
      cases he
      exact Machine.load_error hm
    | ok m =>
      rw [runClass, hm, heq m hm] at he
      exact hl.runFrom_safe hbasic' hat 0 limit he

/-- Pushes a number and takes it from the stack again, for ever. -/
def endlessLoop : Code where
  entries := #[.mark ⟨0, 0⟩, .pushInt 70000, .simple Opcode.pop.byte, .jump .always ⟨0, 0⟩]
  places := #[some 0]

theorem static_checks_suffice_endlessLoop :
    ∃ w w₁ pool method data, ClassWriter.new "Loop" objectClass = .ok w ∧
      endlessLoop.assemble 1 w.pool = .ok method pool ∧
      ClassWriter.bytes { w with
        pool, methods := #[⟨accStatic, mainName, mainDescriptor, method⟩] } = .ok data w₁ ∧
      ∀ input output limit e, (runClass data input output limit).error = some e →
        ¬ e.IsStructural := by
  have hok : resultIs (fun w => outcomeIs (fun method pool => outcomeIs (fun _ _ => true)
      (ClassWriter.bytes { w with
        pool, methods := #[⟨accStatic, mainName, mainDescriptor, method⟩] }))
      (endlessLoop.assemble 1 w.pool)) (ClassWriter.new "Loop" objectClass) = true := by cbv
  obtain ⟨w, hnew, hok⟩ := of_resultIs hok
  obtain ⟨method, pool, hassemble, hok⟩ := of_outcomeIs hok
  obtain ⟨data, w₁, hbytes, -⟩ := of_outcomeIs hok
  obtain ⟨hsound, hmethods, hopen⟩ := ClassWriter.new_sound hnew
  have hadd : ClassWriter.addMethod accStatic mainName mainDescriptor (some method) { w with pool } =
      .ok () { w with pool, methods := #[⟨accStatic, mainName, mainDescriptor, method⟩] } := by
    have hopen' : ({ w with pool } : ClassWriter).isFinished = false := hopen
    rw [ClassWriter.addMethod_eq_ok hopen' (by simp [hmethods])]
    simp [hmethods]
  have hshort : ∀ body ∈ some method, body.bytecode.length + 12 < 4294967296 := by
    obtain ⟨b, -, -, hb, -⟩ := Code.body_of_assemble hsound.valid hassemble
    have := b.assembled.bounded
    intro body hbody
    cases hbody
    rw [← hb]
    omega
  have hsteps := Relation.ReflTransGen.single
    (ClassWriter.Step.addMethod { w with pool } accStatic mainName mainDescriptor _ hshort)
  rw [hadd] at hsteps
  obtain ⟨_, _, _, -, -, hsafe⟩ := static_checks_suffice ⟨_, _, w, hnew, .refl⟩
    (by
      intro i hi
      simp only [endlessLoop, List.mem_cons, List.not_mem_nil, or_false] at hi
      rcases hi with rfl | rfl | rfl | rfl
      · trivial
      · trivial
      · exact ⟨.pop, rfl, rfl⟩
      · trivial)
    hassemble hsteps (List.mem_singleton_self _) ⟨rfl, rfl⟩ rfl (Int.le_refl _) (Int.le_refl _) hbytes
  exact ⟨w, w₁, pool, method, data, hnew, hassemble, hbytes, fun input output =>
    (hsafe input output).2.2⟩

end ClassForge
