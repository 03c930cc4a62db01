import ClassForge.Proofs.RawActions
import ClassForge.Proofs.SafeExecution

/-! A machine over plain memory never crashes, whatever class, input and number of steps it is
given. -/

namespace ClassForge

namespace Machine

variable {α : Type} {m : Machine}

theorem mirrors_popInt (hm : m.Sound) : Mirrors RawMachine.popInt popInt m Anything := by
  refine (mirrors_pop hm).bind fun v m hm _ _ => ?_
  cases v with
  | int n => exact .pure hm trivial
  | _ => exact .fault hm _

theorem mirrors_put (hm : m.Sound) {v : Value} (hv : v.Allocated m) :
    Mirrors (RawMachine.push v) (push v) m Anything :=
  (mirrors_push hm hv).imp fun _ _ _ => trivial

theorem mirrors_loadConstant (hm : m.Sound) (index : Nat) :
    Mirrors (RawMachine.loadConstant index) (loadConstant index) m Anything := by
  refine (mirrors_constant hm index).bind fun c m hm _ _ => ?_
  cases c with
  | integer n => exact mirrors_put hm nofun
  | stringRef s => exact mirrors_put hm nofun
  | _ => exact .fault hm _

theorem mirrors_access (hm : m.Sound) (op : UInt8) (slot : Nat) :
    Mirrors (RawMachine.access op slot) (access op slot) m Anything := by
  refine (mirrors_slotValue hm op slot).bind fun held m hm _ ⟨hheld, hslot⟩ => ?_
  cases LocalOp.ofByte? op with
  | none => exact .fault hm _
  | some op =>
    cases op with
    | iload =>
      cases held with
      | int n => exact mirrors_put hm nofun
      | _ => exact .fault hm _
    | aload =>
      cases held with
      | int n => exact .fault hm _
      | _ => exact mirrors_put hm hheld
    | istore =>
      refine (mirrors_popInt hm).bind fun n m hm hframe _ => ?_
      exact mirrors_setSlot hm (hframe.locals ▸ hslot) nofun
    | astore =>
      refine (mirrors_pop hm).bind fun v m hm hframe hv => ?_
      have hslot : slot < m.locals.size := hframe.locals ▸ hslot
      cases v with
      | int n => exact .fault hm _
      | _ => exact mirrors_setSlot hm hslot hv

theorem mirrors_arithmetic (hm : m.Sound) (op : ArithmeticOp) :
    Mirrors (RawMachine.arithmetic op) (arithmetic op) m Anything := by
  refine (mirrors_popInt hm).bind fun right m hm _ _ => ?_
  refine (mirrors_popInt hm).bind fun left m hm _ _ => ?_
  cases op with
  | div =>
    by_cases hzero : right = 0
    · simp only [if_pos hzero]
      exact .fault hm _
    · have hquotient : Memory.quotient left right = .ok (left / right) := if_neg hzero
      simp only [if_neg hzero, RawMachine.memory_bind hquotient]
      exact mirrors_put hm nofun
  | _ => exact mirrors_put hm nofun

theorem mirrors_branch (hm : m.Sound) (relation : Relation) (start : Nat) :
    Mirrors (RawMachine.branch relation start) (branch relation start) m Anything := by
  refine (mirrors_operand16 hm).bind fun offset m hm _ _ => ?_
  refine (mirrors_popInt hm).bind fun right m hm _ _ => ?_
  refine (mirrors_popInt hm).bind fun left m hm _ _ => ?_
  by_cases hholds : relation.holds left right = true
  · simp only [if_pos hholds]
    exact mirrors_jump hm start _
  · simp only [if_neg hholds]
    exact .pure hm trivial

theorem mirrors_fieldOperand (hm : m.Sound) :
    Mirrors RawMachine.fieldOperand fieldOperand m Anything := by
  refine (mirrors_operand16 hm).bind fun index m hm _ _ => ?_
  refine (mirrors_constant hm index).bind fun c m hm _ _ => ?_
  cases c with
  | fieldRef member => exact .pure hm trivial
  | _ => exact .fault hm _

theorem mirrors_methodOperand (hm : m.Sound) :
    Mirrors RawMachine.methodOperand methodOperand m Anything := by
  refine (mirrors_operand16 hm).bind fun index m hm _ _ => ?_
  refine (mirrors_constant hm index).bind fun c m hm _ _ => ?_
  cases c with
  | methodRef member => exact .pure hm trivial
  | _ => exact .fault hm _

theorem mirrors_getstatic (hm : m.Sound) :
    Mirrors RawMachine.getstatic getstatic m Anything := by
  refine (mirrors_fieldOperand hm).bind fun member m hm _ _ => ?_
  split
  · exact mirrors_put hm nofun
  · split
    · exact mirrors_put hm nofun
    · exact .fault hm _

theorem mirrors_newObject (hm : m.Sound) :
    Mirrors RawMachine.newObject newObject m Anything := by
  refine (mirrors_operand16 hm).bind fun index m hm _ _ => ?_
  refine (mirrors_constant hm index).bind fun c m hm _ _ => ?_
  cases c with
  | classRef name =>
    by_cases hscanner : (name == scannerClass) = true
    · simp only [if_pos hscanner]
      exact mirrors_newScanner hm
    · simp only [if_neg hscanner]
      exact .fault hm _
  | _ => exact .fault hm _

theorem mirrors_constructScanner (hm : m.Sound) :
    Mirrors RawMachine.constructScanner constructScanner m Anything := by
  refine (mirrors_pop hm).bind fun argument m hm _ _ => ?_
  cases argument with
  | inputStream =>
    refine (mirrors_pop hm).bind fun receiver m hm _ hreceiver => ?_
    cases receiver with
    | scanner number => exact mirrors_construct hm hreceiver
    | _ => exact .fault hm _
  | _ => exact .fault hm _

theorem mirrors_printText (hm : m.Sound) (descriptor : Bytes) :
    Mirrors (RawMachine.printText descriptor) (printText descriptor) m Anything := by
  simp only [RawMachine.printText, printText]
  split
  · exact (mirrors_popInt hm).bind fun n m hm _ _ => .pure hm trivial
  · split
    · refine (mirrors_pop hm).bind fun v m hm _ _ => ?_
      cases v with
      | text s => exact .pure hm trivial
      | null => exact .pure hm trivial
      | _ => exact .fault hm _
    · exact .fault hm _

theorem mirrors_println (hm : m.Sound) (descriptor : Bytes) :
    Mirrors (RawMachine.println descriptor) (println descriptor) m Anything := by
  refine (mirrors_printText hm descriptor).bind fun text m hm _ _ => ?_
  refine (mirrors_pop hm).bind fun receiver m hm _ _ => ?_
  cases receiver with
  | outputStream => exact mirrors_write hm _
  | _ => exact .fault hm _

theorem mirrors_invoke (hm : m.Sound) (op : CallOp) :
    Mirrors (RawMachine.invoke op) (invoke op) m Anything := by
  refine (mirrors_methodOperand hm).bind fun member m hm _ _ => ?_
  dsimp only
  split
  · exact mirrors_constructScanner hm
  · split
    · exact mirrors_println hm _
    · split
      · rw [← bind_assoc]
        exact (mirrors_scan hm _).bind fun n m hm _ _ => mirrors_put hm nofun
      · split
        · rw [← bind_assoc]
          exact (mirrors_scan hm _).bind fun s m hm _ _ => mirrors_put hm nofun
        · exact .fault hm _

theorem Mirrors.finish {x : RawMachine.Action α} {y : Action α} {done : Bool}
    (h : Mirrors x y m Anything) :
    Mirrors (x >>= fun _ => Pure.pure done) (y >>= fun _ => Pure.pure done) m Anything :=
  h.bind fun _ _ hm _ _ => .pure hm trivial

theorem mirrors_execute (hm : m.Sound) (start : Nat) (op : Opcode) :
    Mirrors (RawMachine.execute start op) (execute start op) m Anything := by
  cases op with
  | nop => exact (mirrors_advance hm 1).finish
  | aconstNull => exact (mirrors_advance hm 1).bind fun _ m hm _ _ => .finish (mirrors_put hm nofun)
  | iconst n => exact (mirrors_advance hm 1).bind fun _ m hm _ _ => .finish (mirrors_put hm nofun)
  | bipush => exact (mirrors_operand8 hm).bind fun _ m hm _ _ => .finish (mirrors_put hm nofun)
  | sipush => exact (mirrors_operand16 hm).bind fun _ m hm _ _ => .finish (mirrors_put hm nofun)
  | ldc => exact (mirrors_operand8 hm).bind fun i m hm _ _ => (mirrors_loadConstant hm i).finish
  | ldcWide =>
    exact (mirrors_operand16 hm).bind fun i m hm _ _ => (mirrors_loadConstant hm i).finish
  | access op =>
    exact (mirrors_operand8 hm).bind fun slot m hm _ _ => (mirrors_access hm op.byte slot).finish
  | shortAccess op slot =>
    exact (mirrors_advance hm 1).bind fun _ m hm _ _ => (mirrors_access hm op.byte slot).finish
  | wide =>
    exact (mirrors_operand24 hm).bind fun ⟨op, slot⟩ m hm _ _ => (mirrors_access hm op slot).finish
  | pop => exact (mirrors_advance hm 1).bind fun _ m hm _ _ =>
      (mirrors_pop hm).bind fun _ m hm _ _ => .pure hm trivial
  | dup =>
    refine (mirrors_advance hm 1).bind fun _ m hm _ _ => ?_
    refine (mirrors_pop hm).bind fun v m hm _ hv => ?_
    refine (mirrors_push hm hv).bind fun _ m' hm' _ hsame => ?_
    have hv' : v.Allocated m' := fun number hnumber => hsame ▸ hv number hnumber
    exact (mirrors_put hm' hv').finish
  | arithmetic op =>
    exact (mirrors_advance hm 1).bind fun _ m hm _ _ => (mirrors_arithmetic hm op).finish
  | branch relation => exact (mirrors_branch hm relation start).finish
  | goto => exact (mirrors_operand16 hm).bind fun _ m hm _ _ => (mirrors_jump hm start _).finish
  | returnVoid => exact (mirrors_advance hm 1).finish
  | getstatic => exact (mirrors_getstatic hm).finish
  | new => exact (mirrors_newObject hm).finish
  | invoke op =>
    cases op with
    | static => exact .fault hm _
    | _ => exact (mirrors_invoke hm _).finish

theorem mirrors_step (hm : m.Sound) (hpc : m.pc < m.code.size) :
    Mirrors RawMachine.step step m Anything := by
  have hbyte : m.code[m.pc]? = some m.code[m.pc] := Array.getElem?_eq_getElem hpc
  have helement : Memory.element m.code m.pc = .ok m.code[m.pc] := Memory.element_natCast hpc
  cases hop : Opcode.ofByte? m.code[m.pc] with
  | none =>
    have hstep : step m = .error (.unsupportedInstruction m.code[m.pc]) m := by
      simp only [step, hbyte, hop]
    refine .of_error hm hstep ?_
    rw [RawMachine.step, RawMachine.get_bind, raw_code, raw_pc, RawMachine.memory_bind helement, hop]
    rfl
  | some op =>
    have hstep : step m = execute m.pc op m := by simp only [step, hbyte, hop]
    have hraw : RawMachine.step m.raw = RawMachine.execute m.pc op m.raw := by
      simp only [RawMachine.step, RawMachine.get_bind, raw_code, raw_pc,
        RawMachine.memory_bind helement, hop]
    unfold Mirrors
    rw [hstep, hraw]
    exact mirrors_execute hm m.pc op

theorem raw_runFrom (hm : m.Sound) (checks limit : Nat) :
    m.raw.runFrom checks limit = .ok (m.runFrom checks limit) := by
  induction limit generalizing m checks with
  | zero => rfl
  | succ limit ih =>
    rw [RawMachine.runFrom, runFrom]
    by_cases hend : m.pc ≥ m.code.size
    · have hraw : m.raw.pc ≥ m.raw.code.size := by simpa using hend
      rw [if_pos hraw, if_pos hend]
      rfl
    · have hraw : ¬ m.raw.pc ≥ m.raw.code.size := by simpa using hend
      have hstep := mirrors_step hm (Nat.lt_of_not_le hend)
      rw [if_neg hraw, if_neg hend]
      unfold Mirrors at hstep
      split at hstep
      · next done m' hs =>
        obtain ⟨hraw, hm', -, -⟩ := hstep
        rw [hraw, hs]
        cases done with
        | true => rfl
        | false => exact ih hm' (checks + 1)
      · next e m' hs =>
        obtain ⟨hraw, -, -⟩ := hstep
        rw [hraw, hs]
        rfl

/-- The machine at the start of a body. -/
def entered (c : ClassFile) (body : CodeAttribute) (input : Input) (output : Output) : Machine where
  constants := c.constants
  code := body.bytecode.toArray
  maxStack := body.maxStack
  locals := initialLocals body.maxLocals
  input
  output

theorem raw_entered (c : ClassFile) (body : CodeAttribute) (input : Input) (output : Output) :
    RawMachine.enter c body input output = .ok (entered c body input output).raw := by
  by_cases hlocals : 0 < body.maxLocals
  · have hsize : 0 < (Array.replicate body.maxLocals Value.null).size := by simpa using hlocals
    have hupdate : Memory.update (Array.replicate body.maxLocals Value.null) 0 .arguments =
        .ok (initialLocals body.maxLocals) := Memory.update_natCast hsize .arguments
    simp only [RawMachine.enter, if_pos hsize, hupdate]
    simp [bind, Except.bind, Pure.pure, Except.pure, entered, raw]
  · have hnone : body.maxLocals = 0 := by omega
    simp [RawMachine.enter, bind, Except.bind, Pure.pure, Except.pure, entered, raw, initialLocals,
      hnone]

theorem entered_sound (c : ClassFile) (body : CodeAttribute) (input : Input) (output : Output) :
    (entered c body input output).Sound := by
  refine ⟨Nat.zero_le _, nofun, fun v hv => ?_⟩
  rcases Array.mem_or_eq_of_mem_setIfInBounds hv with hv | rfl
  · cases (Array.mem_replicate.mp hv).2
    exact nofun
  · exact nofun

end Machine

namespace RawMachine

/-- The states that a run can come to, those included where it ends. -/
inductive Reaches (start : RawMachine) : RawMachine → Prop
  | refl : Reaches start start
  | step {m : RawMachine} (h : Reaches start m) (hpc : m.pc < m.code.size) :
      Reaches start (stateAfter (RawMachine.step m))

/-- The machine is within the bounds of the body that it runs. -/
structure Bounded (c : ClassFile) (body : CodeAttribute) (m : RawMachine) : Prop where
  pc : 0 ≤ m.pc
  stack : m.stack.size ≤ body.maxStack
  locals : m.locals.size = body.maxLocals
  code : m.code = body.bytecode.toArray
  pool : m.pool = #[none] ++ c.constants.map some
  step : m.pc < m.code.size → ∀ cause m', RawMachine.step m ≠ .error (.crash cause) m'

theorem Reaches.mirrored {start : Machine} {raw : RawMachine} (hstart : start.Sound)
    (h : start.raw.Reaches raw) : ∃ m : Machine, raw = m.raw ∧ m.Sound ∧ start.SameFrame m := by
  induction h with
  | refl => exact ⟨start, rfl, hstart, .refl start⟩
  | step _ hpc ih =>
    obtain ⟨m, rfl, hm, hframe⟩ := ih
    have hstep := Machine.mirrors_step hm (by simpa using hpc)
    unfold Machine.Mirrors at hstep
    split at hstep
    · next done m' _ =>
      obtain ⟨hraw, hm', hframe', -⟩ := hstep
      exact ⟨m', by rw [hraw]; rfl, hm', hframe.trans hframe'⟩
    · next e m' _ =>
      obtain ⟨hraw, hm', hframe'⟩ := hstep
      exact ⟨m', by rw [hraw]; rfl, hm', hframe.trans hframe'⟩

end RawMachine

theorem Machine.Sound.bounded {m : Machine} {c : ClassFile} {body : CodeAttribute} {input : Input}
    {output : Output} (hm : m.Sound)
    (hframe : (Machine.entered c body input output).SameFrame m) : m.raw.Bounded c body where
  pc := Int.natCast_nonneg m.pc
  stack := hm.height.trans_eq hframe.maxStack
  locals := by
    rw [raw_locals, hframe.locals]
    simp [entered, initialLocals]
  code := hframe.code
  pool := by simp only [raw, hframe.constants, entered]
  step hpc cause m' hcrash := by
    have hstep := mirrors_step hm (by simpa using hpc)
    unfold Mirrors at hstep
    split at hstep
    · rw [hstep.1] at hcrash
      cases hcrash
    · rw [hstep.1] at hcrash
      cases hcrash

/-- What the machine comes to is what it comes to over plain memory. -/
theorem Machine.Sound.reaches {start m : Machine} (hstart : start.Sound) (h : start.Reaches m) :
    start.raw.Reaches m.raw ∧ m.Sound := by
  induction h with
  | refl => exact ⟨.refl, hstart⟩
  | @tail m m' _ hstep ih =>
    obtain ⟨hreaches, hm⟩ := ih
    have hpc : m.pc < m.code.size := by
      by_contra hend
      simp only [step, Array.getElem?_eq_none (Nat.le_of_not_lt hend)] at hstep
      cases hstep
    have hmirrors := mirrors_step hm hpc
    simp only [Mirrors, hstep] at hmirrors
    obtain ⟨hraw, hm', -⟩ := hmirrors
    have hlast : stateAfter (RawMachine.step m.raw) = m'.raw := by rw [hraw, stateAfter]
    refine ⟨hlast ▸ .step hreaches ?_, hm'⟩
    simpa using hpc

/-- A run over plain memory never crashes and gives the same report, whatever class, input and
number of steps it is given, and every state that it comes to is within bounds. -/
theorem run_never_crashes (data : Bytes) (input : Input) (output : Output) (limit : Nat) :
    RawMachine.runClass data input output limit = .ok (runClass data input output limit) ∧
      ∀ c main body, ClassFile.parse data = .ok c →
        c.lookupMethod ClassFile.mainName ClassFile.mainDescriptor = .ok main →
        main.code = some body →
        ∃ start, Machine.load data input output = .ok start ∧
          RawMachine.enter c body input output = .ok start.raw ∧
          (∀ m, start.Reaches m → start.raw.Reaches m.raw) ∧
          ∀ m, start.raw.Reaches m → m.Bounded c body := by
  constructor
  · simp only [RawMachine.runClass, runClass, Machine.load]
    cases ClassFile.parse data with
    | error e => rfl
    | ok c =>
      dsimp only
      cases c.lookupMethod ClassFile.mainName ClassFile.mainDescriptor with
      | error e => rfl
      | ok main =>
        dsimp only
        cases main.code with
        | none => rfl
        | some body =>
          have hrun := Machine.raw_runFrom (Machine.entered_sound c body input output) 0 limit
          simp only [Memory.follow, Machine.raw_entered]
          exact hrun
  · intro c main body hc hmain hbody
    have hsound := Machine.entered_sound c body input output
    refine ⟨Machine.entered c body input output, ?_, Machine.raw_entered c body input output,
      fun m hreaches => (hsound.reaches hreaches).1, fun m hreaches => ?_⟩
    · simp only [Machine.load, hc, hmain, hbody]
      rfl
    · obtain ⟨m, rfl, hm, hframe⟩ := hreaches.mirrored hsound
      exact hm.bounded hframe

/-- A class whose main method jumps to the byte in front of its code. -/
def strayJump : Bytes :=
  [0xca, 0xfe, 0xba, 0xbe, 0, 0, 0, 0x34, 0, 6, 1, 0, 1, 0x41, 7, 0, 1] ++
    [1, 0, 4] ++ ClassFile.mainName ++ [1, 0, 22] ++ ClassFile.mainDescriptor ++
    [1, 0, 4] ++ ClassFile.codeAttributeName ++
    [0, 1, 0, 2, 0, 0, 0, 0, 0, 0, 0, 1, 0, 9, 0, 3, 0, 4, 0, 1, 0, 5, 0, 0, 0, 16] ++
    [0, 1, 0, 1, 0, 0, 0, 4, 0x01, 0xa7, 0xff, 0xfe, 0, 0, 0, 0, 0, 0]

theorem run_never_crashes_strayJump :
    RawMachine.runClass strayJump ⟨[], false⟩ {} 3 =
        .ok ⟨some (.fault 4 (.outsideCode (-1))), {}, 2⟩ ∧
      ∃ c main body start, ClassFile.parse strayJump = .ok c ∧
        c.lookupMethod ClassFile.mainName ClassFile.mainDescriptor = .ok main ∧
        main.code = some body ∧ RawMachine.enter c body ⟨[], false⟩ {} = .ok start ∧
        start.pc < start.code.size ∧ (stateAfter (RawMachine.step start)).Bounded c body := by
  have hreport : runClass strayJump ⟨[], false⟩ {} 3 =
      ⟨some (.fault 4 (.outsideCode (-1))), {}, 2⟩ := by cbv
  have hparse : resultIs (fun c => resultIs (fun main =>
      main.code.any fun body => body.bytecode == [0x01, 0xa7, 0xff, 0xfe])
      (c.lookupMethod ClassFile.mainName ClassFile.mainDescriptor))
      (ClassFile.parse strayJump) = true := by cbv
  obtain ⟨c, hc, hparse⟩ := of_resultIs hparse
  obtain ⟨main, hmain, hparse⟩ := of_resultIs hparse
  obtain ⟨body, hbody, hbytes⟩ := (Option.any_eq_true _ _).mp hparse
  obtain ⟨hrun, hbounds⟩ := run_never_crashes strayJump ⟨[], false⟩ {} 3
  obtain ⟨start, -, hstart, -, hbounded⟩ := hbounds c main body hc hmain hbody
  have hpc : start.raw.pc < start.raw.code.size := by
    rw [Machine.raw_entered] at hstart
    rw [← Except.ok.inj hstart]
    simp [Machine.entered, Machine.raw, eq_of_beq hbytes]
  exact ⟨hrun.trans (congrArg _ hreport), c, main, body, start.raw, hc, hmain, hbody, hstart, hpc,
    hbounded _ (.step .refl hpc)⟩

end ClassForge
