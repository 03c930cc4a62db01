import ClassForge.Proofs.PackagedMain
import ClassForge.Proofs.TextPieces

/-! A class that is written after any run of operations. Reading it gives back what was put into it:
its names and flags, its methods in their order, and every constant at its index. -/

namespace ClassForge

open ClassFile

namespace ClassWriter

/-- A call to a class writer before the class is written. The body that a constructor or other code
is assembled to can be added by a later call. -/
inductive Operation where
  | request (r : ConstantPool.Request)
  | assemble (code : Code) (least : Int)
  | constructorBody
  | addMethod (access : UInt16) (name descriptor : Bytes) (body : Option Method)
  | setAccess (access : UInt16)

namespace Operation

/-- What the call makes of the writer, whether it succeeds or not. -/
def apply : Operation → ClassWriter → ClassWriter
  | request r, w => stateAfter (onPool .pool r.perform w)
  | assemble code least, w => stateAfter (onPool .assembly (code.assemble least) w)
  | constructorBody, w => stateAfter (ClassWriter.constructorBody w)
  | addMethod access name descriptor body, w =>
    stateAfter (ClassWriter.addMethod access name descriptor body w)
  | setAccess access, w => { w with access }

/-- The method that the call is to add. -/
def method? : Operation → Option WrittenMethod
  | addMethod access name descriptor (some body) => some ⟨access, name, descriptor, body⟩
  | _ => none

def access? : Operation → Option UInt16
  | setAccess access => some access
  | _ => none

end Operation

def run (ops : List Operation) (w : ClassWriter) : ClassWriter :=
  ops.foldl (fun w op => op.apply w) w

/-- Whether the second method takes the place of the first. -/
def isSame (m other : WrittenMethod) : Bool :=
  other.name == m.name && other.descriptor == m.descriptor

/-- The methods that a run adds: the first one of each name and descriptor. -/
def added (ops : List Operation) : List WrittenMethod :=
  (ops.filterMap Operation.method?).eraseDupsBy isSame

/-- The access flags after a run: those that were set last. -/
def accessAfter (ops : List Operation) : UInt16 :=
  (ops.filterMap Operation.access?).getLastD (accPublic ||| accSuper)

theorem stateAfter_onPool {ε α : Type} (wrap : ε → ClassError) (x : EStateM ε ConstantPool α)
    (w : ClassWriter) :
    stateAfter (onPool wrap x w) = { w with pool := stateAfter (x w.pool) } := by
  simp only [onPool]
  cases x w.pool <;> rfl

theorem stateAfter_constructorBody (w : ClassWriter) :
    stateAfter (constructorBody w) =
      { w with pool := stateAfter ((constructorCode w.superName).assemble 1 w.pool) } :=
  stateAfter_onPool .assembly ((constructorCode w.superName).assemble 1) w

theorem Operation.step {op : Operation} {w : ClassWriter}
    (hshort : ∀ m ∈ op.method?, m.body.bytecode.length + 12 < 4294967296) :
    Step w (op.apply w) := by
  cases op with
  | request r =>
    rw [Operation.apply, stateAfter_onPool]
    exact .request w r
  | assemble code least =>
    rw [Operation.apply, stateAfter_onPool]
    exact .assemble w code least
  | constructorBody =>
    rw [Operation.apply, stateAfter_constructorBody]
    exact .assemble w _ 1
  | addMethod access name descriptor body =>
    refine .addMethod w access name descriptor body fun method hmethod => ?_
    cases hmethod
    exact hshort _ rfl
  | setAccess access => exact .setAccess w access

theorem run_steps {ops : List Operation} {w : ClassWriter}
    (hshort : ∀ m ∈ ops.filterMap Operation.method?, m.body.bytecode.length + 12 < 4294967296) :
    Steps w (run ops w) := by
  induction ops generalizing w with
  | nil => exact .refl
  | cons op rest ih =>
    have hop : Step w (op.apply w) := op.step fun m hm => hshort m (by simp_all)
    exact (ih fun m hm => hshort m (by simp_all)).head hop

theorem Operation.apply_fixed (op : Operation) (w : ClassWriter) :
    (op.apply w).name = w.name ∧ (op.apply w).superName = w.superName ∧
      (op.apply w).isFinished = w.isFinished ∧ (op.apply w).access = op.access?.getD w.access := by
  cases op with
  | request r => simp [Operation.apply, stateAfter_onPool, Operation.access?]
  | assemble code least => simp [Operation.apply, stateAfter_onPool, Operation.access?]
  | constructorBody => simp [Operation.apply, stateAfter_constructorBody, Operation.access?]
  | setAccess access => simp [Operation.apply, Operation.access?]
  | addMethod access name descriptor body =>
    rcases addMethod_cases access name descriptor body w with h | ⟨method, -, -, h⟩
    · simp [Operation.apply, h, Operation.access?]
    · simp [Operation.apply, h, Operation.access?]

theorem run_fixed (ops : List Operation) (w : ClassWriter) :
    (run ops w).name = w.name ∧ (run ops w).superName = w.superName ∧
      (run ops w).access = (ops.filterMap Operation.access?).getLastD w.access := by
  induction ops generalizing w with
  | nil => exact ⟨rfl, rfl, rfl⟩
  | cons op rest ih =>
    obtain ⟨hname, hsuper, -, haccess⟩ := op.apply_fixed w
    obtain ⟨hname', hsuper', haccess'⟩ := ih (op.apply w)
    refine ⟨hname'.trans hname, hsuper'.trans hsuper, haccess'.trans ?_⟩
    rw [haccess, List.filterMap_cons]
    cases op.access? with
    | none => rfl
    | some access => exact List.getLastD_cons.symm

/-- A call adds its method behind the others, unless there is one with its name and descriptor. -/
theorem Operation.apply_methods (op : Operation) {w : ClassWriter} (hopen : w.isFinished = false) :
    (op.apply w).methods.toList = match op.method? with
      | some m => if w.methods.toList.any (isSame m) then w.methods.toList
        else w.methods.toList ++ [m]
      | none => w.methods.toList := by
  cases op with
  | request r => simp [Operation.apply, stateAfter_onPool, Operation.method?]
  | assemble code least => simp [Operation.apply, stateAfter_onPool, Operation.method?]
  | constructorBody => simp [Operation.apply, stateAfter_constructorBody, Operation.method?]
  | setAccess access => rfl
  | addMethod access name descriptor body =>
    cases body with
    | none =>
      rcases addMethod_cases access name descriptor none w with h | ⟨method, hbody, -, -⟩
      · simp only [Operation.apply, h, Operation.method?]
      · cases hbody
    | some method =>
      have hany : (w.methods.toList.any (isSame ⟨access, name, descriptor, method⟩)) =
          w.methods.any fun m => m.name == name && m.descriptor == descriptor := Array.any_toList
      simp only [Operation.method?, hany]
      split
      · next hold =>
        rcases addMethod_cases access name descriptor (some method) w with h | ⟨_, -, hnew, -⟩
        · simp only [Operation.apply, h]
        · rw [any_eq_false.mpr hnew] at hold
          cases hold
      · next hnew =>
        rw [Bool.not_eq_true, any_eq_false] at hnew
        simp [Operation.apply, addMethod_eq_ok hopen hnew access method, stateAfter]

theorem run_methods (ops : List Operation) {w : ClassWriter} (hopen : w.isFinished = false) :
    (run ops w).methods.toList = List.eraseDupsBy.loop isSame (ops.filterMap Operation.method?)
      w.methods.toList.reverse := by
  induction ops generalizing w with
  | nil => simp [run, List.eraseDupsBy.loop]
  | cons op rest ih =>
    have hstep := op.apply_methods hopen
    have hrest := ih (w := op.apply w) ((op.apply_fixed w).2.2.1.trans hopen)
    rw [run, List.foldl_cons, ← run, hrest, hstep, List.filterMap_cons]
    cases op.method? with
    | none => rfl
    | some m =>
      simp only [List.eraseDupsBy.loop, List.any_reverse]
      cases w.methods.toList.any (isSame m) with
      | true => rfl
      | false => simp

theorem mem_of_mem_added {ops : List Operation} {m : WrittenMethod} (h : m ∈ added ops) :
    m ∈ ops.filterMap Operation.method? := by
  have hloop (ms done : List WrittenMethod) (hm : m ∈ List.eraseDupsBy.loop isSame ms done) :
      m ∈ ms ∨ m ∈ done := by
    induction ms generalizing done with
    | nil => exact .inr (List.mem_reverse.mp hm)
    | cons first rest ih =>
      simp only [List.eraseDupsBy.loop] at hm
      split at hm
      · exact (ih done hm).imp_left (List.mem_cons_of_mem first)
      · rcases ih (first :: done) hm with hrest | hdone
        · exact .inl (List.mem_cons_of_mem first hrest)
        · rcases List.mem_cons.mp hdone with rfl | hdone
          · exact .inl List.mem_cons_self
          · exact .inr hdone
  simpa using hloop _ [] h

theorem Sound.valid_of_bytes {w w' : ClassWriter} {data : Bytes} (hw : w.Sound)
    (h : bytes w = .ok data w') : w'.pool.Valid := by
  obtain ⟨-, -, code, pool₁, indexes, pool₂, hcode, hindexes, rfl, -⟩ := bytes_eq_ok h
  obtain ⟨hv₁, -, -⟩ := (ConstantPool.utf8_keeps _).of_ok hw.valid trivial hcode
  exact ((methodIndexes_keeps _).of_ok hv₁ trivial hindexes).1

end ClassWriter

/-- The method as it stands in a class file, under the names it was added with. -/
def WrittenMethod.asRead (m : WrittenMethod) : ReadMethod where
  access := m.access
  name := m.name
  descriptor := m.descriptor
  code := some {
    maxStack := m.body.maxStack.toNat
    maxLocals := m.body.maxLocals.toNat
    bytecode := m.body.bytecode }

/-- A method within the limits of a frame is read back as it is, its names apart. -/
theorem WrittenMethod.readBack_eq {m : WrittenMethod} (hstack : 0 ≤ m.body.maxStack)
    (hstack' : m.body.maxStack ≤ 65535) (hlocals : 0 ≤ m.body.maxLocals)
    (hlocals' : m.body.maxLocals ≤ 65535) :
    m.readBack = { m.asRead with
      name := Utf8.repair m.name, descriptor := Utf8.repair m.descriptor } := by
  simp only [readBack, asRead]
  rw [Int.emod_eq_of_lt hstack (by omega), Int.emod_eq_of_lt hlocals (by omega)]

/-- Valid names find the method that was added under them, where no method whose names are not
valid is read back under them. -/
theorem lookupMethod_eq_ok_iff {c : ClassFile} {ms : List WrittenMethod} {name descriptor : Bytes}
    (hmethods : c.methods.toList = ms.map fun m => { m.asRead with
      name := Utf8.repair m.name, descriptor := Utf8.repair m.descriptor })
    (hdistinct : (ms.map fun m => (m.name, m.descriptor)).Nodup)
    (hname : Utf8.isValid name = true) (hdescriptor : Utf8.isValid descriptor = true)
    (hvalid : ∀ m ∈ ms, Utf8.repair m.name = name → Utf8.repair m.descriptor = descriptor →
      Utf8.isValid m.name = true ∧ Utf8.isValid m.descriptor = true) (r : ReadMethod) :
    c.lookupMethod name descriptor = .ok r ↔
      ∃ m ∈ ms, m.name = name ∧ m.descriptor = descriptor ∧ r = m.asRead := by
  have hfound {found : ReadMethod}
      (hfind : (c.methods.find? fun m => m.name == name && m.descriptor == descriptor) =
        some found) :
      ∃ m ∈ ms, m.name = name ∧ m.descriptor = descriptor ∧ found = m.asRead := by
    have hp := Array.find?_some hfind
    have hmem := Array.mem_of_find?_eq_some hfind
    rw [← Array.mem_toList_iff, hmethods, List.mem_map] at hmem
    obtain ⟨m, hm, rfl⟩ := hmem
    simp only [Bool.and_eq_true, beq_iff_eq] at hp
    obtain ⟨hn, hd⟩ := hvalid m hm hp.1 hp.2
    rw [Utf8.repair_of_isValid hn, Utf8.repair_of_isValid hd] at hp ⊢
    exact ⟨m, hm, hp.1, hp.2, rfl⟩
  constructor
  · intro h
    simp only [lookupMethod] at h
    split at h
    · next found hfind =>
      cases h
      exact hfound hfind
    · cases h
  · rintro ⟨m, hm, rfl, rfl, rfl⟩
    obtain ⟨found, hfind⟩ : ∃ found, (c.methods.find? fun other =>
        other.name == m.name && other.descriptor == m.descriptor) = some found := by
      rw [← Option.isSome_iff_exists, Array.find?_isSome]
      refine ⟨m.asRead, ?_, by simp [WrittenMethod.asRead]⟩
      rw [← Array.mem_toList_iff, hmethods, List.mem_map]
      exact ⟨m, hm, by rw [Utf8.repair_of_isValid hname, Utf8.repair_of_isValid hdescriptor]; rfl⟩
    obtain ⟨m', hm', hn, hd, rfl⟩ := hfound hfind
    have heq : m' = m := List.inj_on_of_nodup_map hdistinct hm' hm (by rw [hn, hd])
    simp only [lookupMethod, hfind, heq]

/-- A class that is written after any run of operations is read back as what the run put into it.
A valid name and descriptor find the method that was added under them, and no other, unless a method
with a stray byte in its own is read back under the same ones: the first of the two is found then. -/
theorem written_class_reads_back {name superName : Bytes} {ops : List ClassWriter.Operation}
    {w₀ w : ClassWriter} {data : Bytes} (hnew : ClassWriter.new name superName = .ok w₀)
    (hbodies : ∀ m ∈ ops.filterMap ClassWriter.Operation.method?,
      m.body.bytecode.length < 2147483648 ∧ 0 ≤ m.body.maxStack ∧ 0 ≤ m.body.maxLocals)
    (hcount : (ClassWriter.added ops).length ≤ 65535)
    (hbytes : (ClassWriter.run ops w₀).bytes = .ok data w) :
    ∃ c, parse data = .ok c ∧ c.minor = minorVersion ∧ c.major = majorVersion ∧
      c.access = ClassWriter.accessAfter ops ∧ c.name = Utf8.repair name ∧
      c.superName = Utf8.repair superName ∧
      c.methods.toList = ((ClassWriter.added ops).map fun m => { m.asRead with
        name := Utf8.repair m.name, descriptor := Utf8.repair m.descriptor }) ∧
      c.constants.size + 1 = w.pool.count ∧
      (∀ i, 0 < i → i < w.pool.count →
        ∃ k, w.pool.Denotes i k ∧ c.constant i = .ok k.repaired) ∧
      ∀ method descriptor, Utf8.isValid method = true → Utf8.isValid descriptor = true →
        (∀ m ∈ ClassWriter.added ops, Utf8.repair m.name = method →
          Utf8.repair m.descriptor = descriptor →
          Utf8.isValid m.name = true ∧ Utf8.isValid m.descriptor = true) →
        ∀ r, c.lookupMethod method descriptor = .ok r ↔ ∃ m ∈ ClassWriter.added ops,
          m.name = method ∧ m.descriptor = descriptor ∧ r = m.asRead := by
  obtain ⟨hsound₀, hempty, hopen⟩ := ClassWriter.new_sound hnew
  obtain ⟨hname₀, hsuper₀, haccess₀⟩ := ClassWriter.new_fields hnew
  obtain ⟨hname, hsuper, haccess⟩ := ClassWriter.run_fixed ops w₀
  have hadded : (ClassWriter.run ops w₀).methods.toList = ClassWriter.added ops := by
    rw [ClassWriter.run_methods ops hopen, hempty]
    rfl
  have hsteps : ClassWriter.Steps w₀ (ClassWriter.run ops w₀) := ClassWriter.run_steps fun m hm => by
    have := (hbodies m hm).1
    omega
  have hsound := (hsteps.sound hsound₀).1
  obtain ⟨-, constants, hconstants, hsize, -, hparse⟩ := hsound.parse_bytes hbytes
  have hvalid := hsound.valid_of_bytes hbytes
  have hall : (ClassWriter.run ops w₀).methods.size = (ClassWriter.added ops).length := by
    rw [← hadded, Array.length_toList]
  have hmethods : ((ClassWriter.run ops w₀).readBack constants).methods.toList =
      (ClassWriter.added ops).map fun m => { m.asRead with
        name := Utf8.repair m.name, descriptor := Utf8.repair m.descriptor } := by
    simp only [ClassWriter.readBack, hall, hadded]
    rw [Nat.mod_eq_of_lt (by omega), List.take_length]
    refine List.map_congr_left fun m hm => ?_
    obtain ⟨hstack, hlocals⟩ := ClassWriter.not_exceedsFrame hbytes (hadded ▸ hm)
    obtain ⟨-, hstack', hlocals'⟩ := hbodies m (ClassWriter.mem_of_mem_added hm)
    exact m.readBack_eq hstack' hstack hlocals' hlocals
  refine ⟨_, hparse (by omega), rfl, rfl, ?_, ?_, ?_, hmethods, ?_, fun i hpos hlt => ?_, ?_⟩
  · rw [ClassWriter.readBack, haccess, haccess₀]
    rfl
  · simp only [ClassWriter.readBack, hname, hname₀]
  · simp only [ClassWriter.readBack, hsuper, hsuper₀]
  · simp only [ClassWriter.readBack, hsize, ConstantPool.count]
  · obtain ⟨k, hk⟩ := hvalid.denotes i hpos hlt
    exact ⟨k, hk, hconstants hk⟩
  · intro method descriptor hmethod hdescriptor hclash r
    exact lookupMethod_eq_ok_iff hmethods (hadded ▸ hsound.distinct) hmethod hdescriptor hclash r

/-- Adds a constructor, a method twice and a method with a stray byte in its name, and makes the
class one that is not public. -/
def strayNames : List ClassWriter.Operation :=
  [.request (.integer 70000), .constructorBody,
    .addMethod accPublic constructorName noArgsDescriptor
      (some ⟨[0x2a, 0xb7, 0x00, 0x09, 0xb1], 1, 1⟩),
    .addMethod accStatic [0x72, 0xff] noArgsDescriptor (some ⟨[0x00, 0xb1], 3, 2⟩),
    .addMethod accStatic "run" noArgsDescriptor (some ⟨[0xb1], 0, 0⟩), .setAccess accSuper,
    .addMethod accPublic "run" noArgsDescriptor (some ⟨[0x00, 0x00, 0xb1], 1, 1⟩)]

theorem written_class_reads_back_strayNames :
    ∃ w₀ w data c, ClassWriter.new "Stray" objectClass = .ok w₀ ∧
      (ClassWriter.run strayNames w₀).bytes = .ok data w ∧ parse data = .ok c ∧
      c.access = accSuper ∧ c.methods.toList.map ReadMethod.name =
        [constructorName, [0x72, 0xef, 0xbf, 0xbd], "run"] ∧
      c.lookupMethod "run" noArgsDescriptor =
        .ok ⟨accStatic, "run", noArgsDescriptor, some ⟨0, 0, [0xb1]⟩⟩ := by
  have hok : resultIs (fun w₀ => outcomeIs (fun _ _ => true) (ClassWriter.run strayNames w₀).bytes)
      (ClassWriter.new "Stray" objectClass) = true := by cbv
  obtain ⟨w₀, hnew, hok⟩ := of_resultIs hok
  obtain ⟨data, w, hbytes, -⟩ := of_outcomeIs hok
  obtain ⟨c, hparse, -, -, haccess, -, -, hmethods, -, -, hlookup⟩ :=
    written_class_reads_back hnew (by decide) (by decide) hbytes
  refine ⟨w₀, w, data, c, hnew, hbytes, hparse, haccess, ?_, ?_⟩
  · rw [hmethods]
    decide
  · rw [hlookup "run" noArgsDescriptor (by decide) (by decide) (by decide)]
    decide

/-- A stray byte is read back as U+FFFD, so this name finds the method that was added under the
byte and not the one that was added under the name itself. -/
example :
    let ops : List ClassWriter.Operation :=
      [.addMethod accStatic [0xff] noArgsDescriptor (some ⟨[0xb1], 0, 0⟩),
        .addMethod accPublic [0xef, 0xbf, 0xbd] noArgsDescriptor (some ⟨[0x00, 0xb1], 0, 0⟩)]
    resultIs (fun w₀ => outcomeIs (fun data _ => resultIs (fun c => resultIs
          (fun m => m = ⟨accStatic, [0xef, 0xbf, 0xbd], noArgsDescriptor, some ⟨0, 0, [0xb1]⟩⟩)
          (c.lookupMethod [0xef, 0xbf, 0xbd] noArgsDescriptor)) (parse data))
        (ClassWriter.run ops w₀).bytes) (ClassWriter.new "Clash" objectClass) = true := by
  cbv

end ClassForge
