import ClassForge.Proofs.ProgramClass
import ClassForge.Proofs.StackBalance

/-! The emitted code of a program is structurally valid. Its labels are each placed once, its stack
is balanced, and what can keep it from becoming a class file are the sizes of the format. -/

namespace ClassForge

open ClassFile
open ConstantPool (Fitting)

namespace Emission

variable {slots : Nat} {i : Instruction}

theorem fits_println (type : VarType) : (println type).Fits := by
  cases type <;> decide

theorem fits_nextOf (type : VarType) : (nextOf type).Fits := by
  cases type <;> decide

theorem Operation.isOrderly (h : Operation slots i) : i.IsOrderly := by
  cases h with
  | access op hslot => exact Int.natCast_nonneg _
  | arithmetic op =>
    show (Opcode.ofByte? _).isSome = true
    rw [Opcode.ofByte?_byte]
    rfl
  | dup => exact rfl
  | systemOut => exact (by decide : Member.Fits Emission.systemOut)
  | systemIn => exact (by decide : Member.Fits Emission.systemIn)
  | scannerInit => exact (by decide : Member.Fits Emission.scannerInit)
  | new => exact (by decide : Fitting scannerClass)
  | println type => exact fits_println type
  | next type => exact fits_nextOf type
  | _ => trivial

/-- An instruction takes at least as many bytes as the words it takes from the stack for good. -/
theorem Operation.pops_le (h : Operation slots i) {pops pushes : Nat}
    (he : i.effect = .ok (pops, pushes)) (index : Nat) : pops ≤ pushes + i.width index := by
  have hpos (hmark : i.isMark = false) := i.width_pos hmark index
  cases h with
  | access op hslot =>
    have hone : (Opcode.access op).pops ≤ 1 := by cases op <;> decide
    have := hpos rfl
    cases he
    omega
  | arithmetic op =>
    rw [effect_arithmetic] at he
    cases he
    simp [Instruction.width]
  | println type =>
    rw [effect_println] at he
    cases he
    simp [Instruction.width]
  | next type =>
    rw [effect_nextOf] at he
    cases he
    simp [Instruction.width]
  | jump op label =>
    have htwo : op.opcode.pops ≤ 2 := by
      cases op with
      | always => decide
      | when relation => cases relation <;> decide
    cases he
    simp only [Instruction.width]
    omega
  | dup =>
    cases he
    exact (by decide : 1 ≤ 2 + 1)
  | scannerInit =>
    cases he
    exact (by decide : 2 ≤ 0 + 3)
  | _ =>
    cases he
    simp [Instruction.width]

section Prelude

variable {full : Code} {pool : ConstantPool} {placements : Array Placement} {length j k : Nat}
variable (harranged : Layout.Arranged pool 0 full.entries.toList placements.toList length)

include harranged

theorem InitialisedAt.start_le {vs : List Variable} (hs : InitialisedAt full vs k j) :
    Code.start placements length k + 2 * vs.length ≤ Code.start placements length j := by
  induction vs generalizing k with
  | nil => exact hs ▸ le_rfl
  | cons v rest ih =>
    obtain ⟨hfirst, hstore, hrest⟩ := hs
    have hmark : (firstOf v.type).isMark = false := by cases v.type <;> rfl
    have hmark' : (storeOf v).isMark = false := by
      simp only [storeOf]
      cases v.type <;> rfl
    have h₁ := harranged.start_lt_succ hfirst hmark
    have h₂ : _ < Code.start placements length (k + 2) := harranged.start_lt_succ hstore hmark'
    have h₃ := ih hrest
    simp only [List.length_cons]
    omega

/-- The body is longer than there are slots, since each slot is filled in it. -/
theorem PreludeAt.start_le {vs : List Variable} {reader : Option Nat}
    (hs : PreludeAt full vs reader 0 j) :
    vs.length + reader.toList.length ≤ Code.start placements length j := by
  obtain ⟨k, hinit, hreader⟩ := hs
  have hstart := hinit.start_le harranged
  cases reader with
  | none =>
    cases hreader
    simp only [Option.toList_none, List.length_nil]
    omega
  | some slot =>
    obtain ⟨hnew, -, -, -, -, rfl⟩ := hreader
    have h₁ := harranged.start_lt_succ hnew rfl
    have h₂ := harranged.start_mono (show k + 1 ≤ k + 5 by omega)
    simp only [Option.toList_some, List.length_singleton]
    omega

end Prelude

end Emission

/-- The sequence of the body with its final return. -/
def Context.finished (context : Context) : Code :=
  context.code.push (.simple Opcode.returnVoid.byte)

/-- The entry point with the given body. -/
def mainMethod (body : Method) : WrittenMethod :=
  ⟨accPublic ||| accStatic, mainName, mainDescriptor, body⟩

namespace Program.Emits

variable {p : Program} {writer : ClassWriter} {table : SymbolTable} {context : Context}

theorem operations (h : p.Emits writer table context) :
    ∀ i ∈ context.code.entries, Emission.Operation context.table.nextSlot i :=
  h.emitted.operations (by simp)

theorem labelled (h : p.Emits writer table context) : context.code.Labelled :=
  h.emitted.fragment.labelled (Code.Labelled.empty 0)

theorem placed (h : p.Emits writer table context) (label : Label)
    (hl : label.number < context.code.places.size) :
    ∃ k, context.code.place? label = some k ∧
      context.code.entries[k]? = some (.mark ⟨context.code.serial, label.number⟩) := by
  obtain ⟨k, hk⟩ := Option.isSome_iff_exists.mp
    (h.emitted.fragment.new (Nat.zero_le label.number) hl)
  have hk' : context.code.place? ⟨context.code.serial, label.number⟩ = some k := hk
  exact ⟨k, hk, h.labelled.placed (by simp [Code.owns, hl]) hk'⟩

theorem shape (h : p.Emits writer table context) :
    Emission.BodyAt context.finished table p.body 0 context.code.entries.size := by
  simpa using h.emitted.shape context.finished (Code.Grows.push _ _)

theorem size_finished (context : Context) :
    context.finished.entries.size = context.code.entries.size + 1 := by
  simp [Context.finished]

theorem returns (context : Context) :
    context.finished.entries[context.code.entries.size]? =
      some (.simple Opcode.returnVoid.byte) := by
  simp [Context.finished]

theorem delivers (h : p.Emits writer table context) :
    context.finished.Delivers context.code.entries.size 0 0 0 :=
  h.shape.delivers (by rw [size_finished]; omega) 0

theorem mem_finished {i : Instruction} (hi : i ∈ context.finished.entries) :
    i ∈ context.code.entries ∨ i = .simple Opcode.returnVoid.byte :=
  Array.mem_push.mp hi

theorem pops_le (h : p.Emits writer table context) {k pops pushes : Nat} {i : Instruction}
    (hi : context.finished.entries[k]? = some i) (he : i.effect = .ok (pops, pushes))
    (index : Nat) : pops ≤ pushes + i.width index := by
  rcases mem_finished (Array.mem_of_getElem? hi) with hmem | rfl
  · exact (h.operations i hmem).pops_le he index
  · cases he
    exact Nat.zero_le _

/-- The assembler accepts the finished sequence unless it is too large. -/
theorem orderly (h : p.Emits writer table context) : context.finished.Orderly where
  isOpen := h.emitted.fragment.isSealed
  placed label hl := by
    obtain ⟨k, hk, hmark⟩ := h.placed label hl
    refine ⟨k, hk, ?_⟩
    have := Code.lt_size hmark
    rw [size_finished]
    omega
  owned hk := (h.labelled.push_plain rfl).jumps hk
  ends := ⟨_, by rw [size_finished, Nat.add_sub_cancel]; exact returns context, rfl⟩
  entries i hi := by
    rcases mem_finished hi with hmem | rfl
    · exact (h.operations i hmem).isOrderly
    · exact rfl
  followed := by
    have hroom {i k pops pushes : Nat} {instruction : Instruction}
        (hi : context.finished.entries[i]? = some instruction)
        (he : instruction.effect = .ok (pops, pushes)) (hlt : i < k) :
        pops + 4 * i ≤ pushes + 4 * k := by
      have := h.pops_le hi he 0
      have := instruction.width_le 0
      omega
    obtain ⟨heights, deepest, hok, -⟩ := Code.stackHeights_of_delivers (returns context) h.delivers
      fun hd => (Nat.le_add_right _ _).trans (hd.add_le hroom)
    exact ⟨_, hok⟩

variable {pool : ConstantPool} {placements : Array Placement} {length : Nat}

/-- The stack is never higher than the body is long. -/
theorem deepest_le (h : p.Emits writer table context) {heights : Heights} {deepest : Nat}
    (harranged : Layout.Arranged pool 0 context.finished.entries.toList placements.toList length)
    (hheights : context.finished.stackHeights = .ok (heights, deepest)) : deepest ≤ length := by
  have hroom {i k pops pushes : Nat} {instruction : Instruction}
      (hi : context.finished.entries[i]? = some instruction)
      (he : instruction.effect = .ok (pops, pushes)) (hlt : i < k) :
      pops + Code.start placements length i ≤ pushes + Code.start placements length k := by
    obtain ⟨q, -, -, -, hnext, -⟩ := harranged.placement hi
    have := h.pops_le hi he q.index
    have := harranged.start_mono (show i + 1 ≤ k from hlt)
    omega
  have hbound {i height : Nat}
      (hd : context.finished.Delivers context.code.entries.size 0 i height) : height ≤ length := by
    have := hd.add_le hroom
    have := harranged.start_le_length context.code.entries.size
    omega
  obtain ⟨heights', deepest', hok, hle⟩ :=
    Code.stackHeights_of_delivers (returns context) h.delivers hbound
  rw [hheights] at hok
  cases hok
  exact hle

theorem nextSlot_eq (h : p.Emits writer table context) :
    context.table.nextSlot = table.declared.size +
      (Emission.scopeOf table p.body).reader.toList.length := by
  have hsound := SymbolTable.Sound.empty.declareAll h.declared
  rw [h.scopeTable, ← hsound.next]
  simp only [Emission.scopeOf, SymbolTable.reserve]
  split <;> rfl

theorem maxLocals_le (h : p.Emits writer table context) (hpos : 0 < length)
    (harranged : Layout.Arranged pool 0 context.finished.entries.toList placements.toList length) :
    context.finished.maxLocals context.table.maxLocals ≤ length := by
  obtain ⟨k, hprelude, -⟩ := h.shape
  have hslots : context.table.nextSlot ≤ length := by
    have h₁ := hprelude.start_le harranged
    have h₂ := harranged.start_le_length k
    rw [h.nextSlot_eq]
    simp only [Array.length_toList] at h₁
    omega
  rw [Code.maxLocals_le_iff]
  refine ⟨?_, fun {k op slot} hk => ?_⟩
  · simp only [SymbolTable.maxLocals]
    omega
  · rcases mem_finished (Array.mem_of_getElem? hk) with hmem | hret
    · cases h.operations _ hmem with
      | access op hslot => omega
    · cases hret

theorem bounds (h : p.Emits writer table context) :
    Emission.Scope.Bounds context.table.nextSlot ⟨context.table, context.reader⟩ := by
  have hsound := SymbolTable.Sound.empty.declareAll h.declared
  rw [h.scopeTable, h.scopeReader]
  exact Emission.bounds_scopeOf hsound p.body

theorem mark_unique (h : p.Emits writer table context) {label : Label}
    (hl : context.code.owns label = true) :
    ∃! k : Nat, context.code.entries[k]? = some (.mark label) := by
  obtain ⟨howner, hlt⟩ := (Code.owns_iff _ _).mp hl
  obtain ⟨k, hk, -⟩ := h.placed label hlt
  refine ⟨k, h.labelled.placed hl hk, fun k' hk' => ?_⟩
  exact Option.some.inj ((h.labelled.marks hk').2.symm.trans hk)

theorem size_lt {code : Code} (hg : code.Grows context.code) :
    code.entries.size < context.finished.entries.size := by
  rw [size_finished, Nat.lt_succ_iff]
  by_contra hlt
  have hsome := Array.getElem?_eq_getElem (show context.code.entries.size < code.entries.size by omega)
  exact absurd (Code.lt_size (hg.entries hsome)) (lt_irrefl _)

theorem frame (h : p.Emits writer table context) {pool pool' : ConstantPool} {method : Method}
    (hv : pool.Valid)
    (hassemble : context.finished.assemble context.table.maxLocals pool = .ok method pool') :
    method.maxStack ≤ 65535 ∧ method.maxLocals ≤ 65535 := by
  obtain ⟨-, -, placements, heights, length, deepest, hlayout, hheights, -, hstack, hlocals⟩ :=
    Code.assemble_eq_ok hassemble
  obtain ⟨-, -, harranged, hpos, hle⟩ := (Code.layout_keeps _).of_ok hv trivial hlayout
  have h₁ := h.deepest_le harranged hheights
  have h₂ := h.maxLocals_le hpos harranged
  omega

theorem emit_return (h : p.Emits writer table context) :
    Code.emit Opcode.returnVoid.byte context.code = .ok () context.finished := by
  have hopen : context.code.isSealed = false := h.emitted.fragment.isSealed
  simp only [Code.emit, Code.append]
  rw [if_neg (by simp [hopen])]
  rfl

theorem addMethod_main_eq (h : p.Emits writer table context) (pool : ConstantPool)
    (method : Method) :
    ClassWriter.addMethod (accPublic ||| accStatic) mainName mainDescriptor (some method)
        { writer with pool } =
      .ok () { writer with pool, methods := writer.methods.push (mainMethod method) } := by
  obtain ⟨-, hopen, constructor, hmethods, hname, hdescriptor, -⟩ :=
    Emitter.newClass_eq_ok h.created
  have hnew : ∀ m ∈ writer.methods.toList,
      (m.name, m.descriptor) ≠ (mainName, mainDescriptor) := by
    rw [hmethods]
    simp only [List.mem_singleton, forall_eq, hname, hdescriptor]
    decide
  exact ClassWriter.addMethod_eq_ok (w := { writer with pool }) hopen hnew _ method

/-- The class with the main method is written unless its pool is full. -/
theorem bytes_fails (h : p.Emits writer table context) {pool : ConstantPool} {method : Method}
    (hassemble : context.finished.assemble context.table.maxLocals writer.pool = .ok method pool)
    {e : ClassError} {w : ClassWriter}
    (hbytes : ClassWriter.bytes
      { writer with pool, methods := writer.methods.push (mainMethod method) } = .error e w) :
    (∃ key, e = .pool (.overflow key)) ∧ 65534 < w.pool.count := by
  obtain ⟨hreached, hopen, constructor, hmethods, hname, hdescriptor, hframe⟩ :=
    Emitter.newClass_eq_ok h.created
  obtain ⟨hstack, hlocals⟩ := h.frame hreached.sound.valid hassemble
  have hall : (writer.methods.push (mainMethod method)).toList =
      [constructor, mainMethod method] := by simp [hmethods]
  have hnames : ∀ m ∈ (writer.methods.push (mainMethod method)).toList,
      Fitting m.name ∧ Fitting m.descriptor := by
    rw [hall]
    simp only [List.mem_cons, List.not_mem_nil, or_false, forall_eq_or_imp, forall_eq, hname,
      hdescriptor, mainMethod]
    decide
  have hmain : ClassWriter.exceedsFrame (mainMethod method) = false := by
    simp [mainMethod, ClassWriter.exceedsFrame, hstack, hlocals]
  have hframes : ∀ m ∈ (writer.methods.push (mainMethod method)).toList,
      ClassWriter.exceedsFrame m = false := by
    rw [hall]
    simp [hframe, hmain]
  exact ClassWriter.bytes_fails
    (w := { writer with pool, methods := writer.methods.push (mainMethod method) })
    hopen hnames hframes hbytes

end Program.Emits

/-- The code of every program that is accepted and emitted is structurally valid. Each of its
labels is placed once, an expression leaves one more word on the stack and a statement leaves the
stack as it was, and closing the emitter fails only for a limit of the class file. -/
theorem emission_structurally_valid {ε : Type} {p : Program} {emitter : Emitter}
    (h : p.emit (ε := ε) .idle = .ok () emitter) :
    ∃ writer context, emitter = .body writer context ∧
      (∀ label, context.code.owns label = true →
        ∃! k : Nat, context.code.entries[k]? = some (.mark label)) ∧
      (∀ {e : Expr} {code code' : Code}, Emission.expression context.table e code = .ok () code' →
        code'.Grows context.code → ∀ height, context.finished.Delivers code'.entries.size
          (height + 1) code.entries.size height) ∧
      (∀ {s : Stmt} {code code' : Code},
        Emission.statement ⟨context.table, context.reader⟩ s code = .ok () code' →
        code'.Grows context.code → ∀ height, context.finished.Delivers code'.entries.size
          height code.entries.size height) ∧
      Code.emit Opcode.returnVoid.byte context.code = .ok () context.finished ∧
      (∀ cause pool, context.finished.assemble context.table.maxLocals writer.pool =
        .error cause pool → cause.IsLimit pool) ∧
      (∀ method pool, context.finished.assemble context.table.maxLocals writer.pool =
        .ok method pool → ∃ w, ClassWriter.addMethod (accPublic ||| accStatic) mainName
          mainDescriptor (some method) { writer with pool } = .ok () w ∧
          ∀ e w', ClassWriter.bytes w = .error e w' →
            (∃ key, e = .pool (.overflow key)) ∧ 65534 < w'.pool.count) ∧
      ∀ e w context', Emitter.finish (ε := ε) writer context = (.error e, w, context') →
        (∃ cause, e = .assembly p.name cause ∧ cause.IsLimit w.pool) ∨
          (∃ key, e = .classFile (.pool (.overflow key))) ∧ 65534 < w.pool.count := by
  obtain ⟨writer, table, context, rfl, hemits⟩ := Program.emit_eq_ok h
  have hvalid : writer.pool.Valid := (Emitter.newClass_eq_ok hemits.created).1.sound.valid
  have hlimit (cause : AssemblyError) (pool : ConstantPool)
      (hassemble : context.finished.assemble context.table.maxLocals writer.pool =
        .error cause pool) : cause.IsLimit pool :=
    hemits.orderly.assemble_fails hvalid hassemble
  refine ⟨writer, context, rfl, fun label hl => hemits.mark_unique hl,
    fun {e code code'} he hg height => ?_, fun {s code code'} hs hg height => ?_,
    hemits.emit_return, hlimit, fun method pool hassemble => ⟨_, hemits.addMethod_main_eq pool method,
      fun e w' hbytes => hemits.bytes_fails hassemble hbytes⟩, fun e w context' hfinish => ?_⟩
  · have hshape := (Emission.expression_emitted hemits.bounds.1 he).shape context.finished
      (hg.trans (Code.Grows.push _ _))
    exact hshape.delivers (Program.Emits.size_lt hg) height
  · have hshape := (Emission.statement_emitted hemits.bounds hs).shape context.finished
      (hg.trans (Code.Grows.push _ _))
    exact hshape.delivers (Program.Emits.size_lt hg) height
  · simp only [Emitter.finish, hemits.emit_return] at hfinish
    cases hassemble : context.finished.assemble context.table.maxLocals writer.pool with
    | error cause pool =>
      simp only [hassemble, Prod.mk.injEq, Except.error.injEq] at hfinish
      obtain ⟨rfl, rfl, -⟩ := hfinish
      exact .inl ⟨cause, by rw [hemits.program], hlimit cause pool hassemble⟩
    | ok method pool =>
      simp only [hassemble, bind_eq_of_ok (hemits.addMethod_main_eq pool method)] at hfinish
      split at hfinish
      · next cause w₂ hx =>
        cases hfinish
        obtain ⟨⟨key, rfl⟩, hfull⟩ := hemits.bytes_fails hassemble hx
        exact .inr ⟨⟨key, rfl⟩, hfull⟩
      · cases hfinish

/-- Reads a number and tells whether it is greater than its double. -/
def doubling : Program where
  name := "Doubling"
  declarations := [⟨"INTEGER", "n"⟩, ⟨"STRING", "verdict"⟩]
  body := [
    .read "n",
    .conditional "n" "GT" "-1"
      [.set "n" (.comparison "GT" (.var "n") (.arithmetic "*" (.var "n") (.int "2"))),
        .print (some (.var "n"))]
      [.conditional "0" "NEQ" "n" [.set "verdict" (.text "\"negative\"")] [],
        .print (some (.var "verdict"))]]

theorem emission_structurally_valid_doubling :
    ∃ writer context, doubling.emit (ε := Empty) .idle = .ok () (.body writer context) ∧
      context.code.owns ⟨0, 5⟩ = true ∧
      (∃! k : Nat, context.code.entries[k]? = some (.mark ⟨0, 5⟩)) ∧
      ∀ cause pool, context.finished.assemble context.table.maxLocals writer.pool =
        .error cause pool → cause.IsLimit pool := by
  have hok : outcomeIs (fun _ emitter =>
      (emitter.context?.any fun context => context.code.owns ⟨0, 5⟩))
      (doubling.emit (ε := Empty) .idle) = true := by cbv
  obtain ⟨u, emitter, hemit, howns⟩ := of_outcomeIs hok
  obtain ⟨writer, context, heq, hlabels, -, -, -, hlimit, -⟩ := emission_structurally_valid hemit
  cases heq
  exact ⟨writer, context, hemit, howns, hlabels _ howns, hlimit⟩

end ClassForge
