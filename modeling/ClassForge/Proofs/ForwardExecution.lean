import ClassForge.Proofs.CompilerCorrectness
import ClassForge.Proofs.EmittedRoles

/-! Compiled programs always finish. All jumps of emitted code go forward, so a machine that runs it
never comes back to an instruction. -/

namespace ClassForge

namespace Code

variable {code : Code} {k j : Nat} {i : Instruction}

/-- Every jump goes to an entry behind it. -/
def Forward (code : Code) : Prop :=
  ∀ {k : Nat} {op : JumpOp} {label : Label}, code.entries[k]? = some (.jump op label) →
    ∃ target, code.place? label = some target ∧ k < target

theorem Forward.lt_of_mem_successors (hf : code.Forward) {next : List Nat}
    (hi : code.entries[k]? = some i) (hnext : code.successors k i = .ok next) (hj : j ∈ next) :
    k < j := by
  rcases (mem_successors hnext hj).2 with rfl | ⟨op, label, rfl, hplace⟩
  · exact Nat.lt_succ_self k
  · obtain ⟨target, htarget, hlt⟩ := hf hi
    rw [hplace] at htarget
    cases htarget
    exact hlt

/-- The number of instructions from entry `k` on. -/
def instructionsFrom (code : Code) (k : Nat) : Nat :=
  (code.entries.toList.drop k).countP (!·.isMark)

theorem instructionsFrom_lt (hi : code.entries[k]? = some i) (hmark : i.isMark = false)
    (hlt : k < j) : code.instructionsFrom j < code.instructionsFrom k := by
  obtain ⟨hk, rfl⟩ := Array.getElem?_eq_some_iff.mp hi
  have hhere : code.instructionsFrom k = code.instructionsFrom (k + 1) + 1 := by
    rw [instructionsFrom, List.drop_eq_getElem_cons (by simpa using hk),
      List.countP_cons_of_pos (by simpa using hmark)]
    rfl
  have hsublist : (code.entries.toList.drop j).Sublist (code.entries.toList.drop (k + 1)) := by
    rw [show j = k + 1 + (j - (k + 1)) by omega, ← List.drop_drop]
    exact List.drop_sublist _ _
  have hle : code.instructionsFrom j ≤ code.instructionsFrom (k + 1) := hsublist.countP_le
  omega

end Code

namespace Body

variable {b : Body} {m m' : Machine} {k : Nat}

section Forward

variable (hbasic : ∀ {k : Nat} {i : Instruction}, b.code.entries[k]? = some i → i.IsBasic)
variable (hforward : b.code.Forward)
include hbasic hforward

/-- A step from an instruction leads to one behind it. -/
theorem Loaded.step_forward (hl : b.Loaded m) (hat : b.AtInstruction m)
    (hstep : Machine.step m = .ok false m') : m.pc < m'.pc := by
  obtain ⟨k, i, hi, hmark, hpc, hk⟩ := hat
  have hgoes := hl.step_goes hbasic hi hmark hpc hk
  rw [hstep] at hgoes
  obtain ⟨-, i', next, j, hi', hnext, hj, hpc', -⟩ := hgoes
  have hlt := hforward.lt_of_mem_successors hi' hnext hj
  have hwide := b.assembled.arranged.start_lt_succ hi hmark
  have hmono := b.assembled.arranged.start_mono (show k + 1 ≤ j from hlt)
  rw [hpc, hpc']
  exact hwide.trans_le hmono

theorem Loaded.pc_lt_of_steps (hl : b.Loaded m) (hat : b.AtInstruction m)
    (h : Relation.TransGen (fun m m' => Machine.step m = .ok false m') m m') : m.pc < m'.pc := by
  induction h with
  | single hstep => exact hl.step_forward hbasic hforward hat hstep
  | tail h hstep ih =>
    obtain ⟨hl', hat'⟩ := hl.reaches hbasic hat h.to_reflTransGen
    exact ih.trans (hl'.step_forward hbasic hforward hat' hstep)

/-- A run is checked at most once for each instruction that is left, and if that many checks pass it
ends by itself. -/
theorem Loaded.finishes {i : Instruction} (hl : b.Loaded m) (hi : b.code.entries[k]? = some i)
    (hmark : i.isMark = false) (hpc : m.pc = b.start k)
    (hk : b.heights.at? k = some m.stack.size) (checks limit : Nat) :
    (m.runFrom checks limit).checks ≤ checks + b.code.instructionsFrom k ∧
      (b.code.instructionsFrom k ≤ limit → (m.runFrom checks limit).error ≠ some .cancelled) := by
  have hpos := Code.instructionsFrom_lt hi hmark (Nat.lt_succ_self k)
  -- Each step takes one of the instructions that are left, and none of them comes back.
  induction limit generalizing m k i checks with
  | zero =>
    refine ⟨?_, fun hle => ?_⟩
    · simp only [Machine.runFrom]
      omega
    · omega
  | succ limit ih =>
    have hat : b.AtInstruction m := ⟨k, i, hi, hmark, hpc, hk⟩
    rw [Machine.runFrom, if_neg (Nat.not_le.mpr (hl.pc_lt hat))]
    cases hstep : Machine.step m with
    | error cause m' => exact ⟨by simp only; omega, fun _ => by simp⟩
    | ok returned m' =>
      cases returned with
      | true => exact ⟨by simp only; omega, fun _ => by simp⟩
      | false =>
        have hreaches : m.Reaches m' := .single hstep
        obtain ⟨hl', k', i', hi', hmark', hpc', hk'⟩ := hl.reaches hbasic hat hreaches
        have hbehind : k < k' := by
          by_contra hle
          have hmono := b.assembled.arranged.start_mono (Nat.le_of_not_lt hle)
          have hlt := hl.step_forward hbasic hforward hat hstep
          rw [hpc, hpc'] at hlt
          exact absurd hmono (Nat.not_le.mpr hlt)
        have hfewer := Code.instructionsFrom_lt hi hmark hbehind
        obtain ⟨hchecks, hends⟩ := ih hl' hi' hmark' hpc' hk' (checks + 1)
          (Code.instructionsFrom_lt hi' hmark' (Nat.lt_succ_self k'))
        exact ⟨by simp only; omega, fun hle => hends (by omega)⟩

end Forward

end Body

theorem Emission.Operation.isBasic {slots : Nat} {i : Instruction} (h : Operation slots i) :
    i.IsBasic := by
  cases h with
  | arithmetic op => exact ⟨.arithmetic op, rfl, rfl⟩
  | dup => exact ⟨.dup, rfl, rfl⟩
  | systemOut => exact ⟨rfl, rfl⟩
  | systemIn => exact ⟨rfl, rfl⟩
  | new => exact rfl
  | scannerInit => exact ⟨.special, rfl⟩
  | println type => exact ⟨.virtual, rfl⟩
  | next type => exact ⟨.virtual, rfl⟩
  | _ => trivial

namespace Program.Emits

open Emission

variable {p : Program} {writer : ClassWriter} {table : SymbolTable} {context : Context}

theorem basic (h : p.Emits writer table context) {k : Nat} {i : Instruction}
    (hi : context.finished.entries[k]? = some i) : i.IsBasic := by
  rcases mem_finished (Array.mem_of_getElem? hi) with hmem | rfl
  · exact (h.operations i hmem).isBasic
  · exact ⟨.returnVoid, rfl, rfl⟩

/-- All jumps of the code of a program go forward. -/
theorem forward (h : p.Emits writer table context) : context.finished.Forward := by
  intro k op label hi
  rcases h.entry_cases hi with hrole | ⟨slot, offset, -, -, hconstruction⟩ | ⟨-, hreturn⟩
  · generalize hi' : Instruction.jump op label = i at hrole
    cases hrole with
    | jump op htarget hlt =>
      cases hi'
      exact ⟨_, htarget, hlt⟩
    | load hv => exact absurd hi' (by simp only [loadOf]; split <;> simp)
    | store hv => exact absurd hi' (by simp only [storeOf]; split <;> simp)
    | _ => cases hi'
  · cases hconstruction
  · cases hreturn

end Program.Emits

/-- The line is one of an instruction and not of a label. -/
def isInstructionLine (line : Bytes) : Bool :=
  line.head? == some 0x09

theorem Instruction.isInstructionLine_render (i : Instruction) :
    isInstructionLine i.render = !i.isMark := by
  cases i <;> rfl

theorem Code.countP_listing (code : Code) :
    code.listing.countP isInstructionLine = code.instructionsFrom 0 := by
  rw [listing, List.countP_map, instructionsFrom, List.drop_zero]
  congr 1
  funext i
  exact i.isInstructionLine_render

/-- A compiled program always finishes. Its jumps go forward, so the counter grows from each
instruction of a run to the next, and there is at most one check for each instruction of the listing;
if that many checks pass, the run ends by itself. -/
theorem compiled_program_finishes {ε σ : Type} {store : ArtifactSink ε (StateM σ)} {p : Program}
    {s : σ} {c : Compilation} (h : (p.compile store s).1 = .ok c) (input : Input)
    (output : Output) :
    ∃ writer context m₀, p.emit (ε := ε) .idle = .ok () (.body writer context) ∧
      c.artifact.listing = context.finished.listing ∧ context.finished.Forward ∧
      Machine.load c.artifact.bytes input output = .ok m₀ ∧
      (∀ m m', m₀.Reaches m →
        Relation.TransGen (fun m m' => Machine.step m = .ok false m') m m' → m.pc < m'.pc) ∧
      ∀ limit,
        (runClass c.artifact.bytes input output limit).checks ≤
          c.artifact.listing.countP isInstructionLine ∧
        (c.artifact.listing.countP isInstructionLine ≤ limit →
          (runClass c.artifact.bytes input output limit).error ≠ some .cancelled) := by
  obtain ⟨writer, table, context, method, pool, w, hemit, hemits, hassemble, hbytes, hlisting⟩ :=
    Program.compile_stages h
  obtain ⟨b, m₀, hcode, hload, hat, -⟩ := hemits.load hassemble hbytes input output
  have hbasic {k : Nat} {i : Instruction} (hi : b.code.entries[k]? = some i) : i.IsBasic := by
    rw [hcode] at hi
    exact hemits.basic hi
  have hforward : b.code.Forward := by
    rw [hcode]
    exact hemits.forward
  obtain ⟨k, i, hi, hmark, hstart, hk⟩ := b.skip_marks 0 hat.height
  have hpc : m₀.pc = b.start k := hat.pc.trans hstart.symm
  refine ⟨writer, context, m₀, hemit, hlisting, hemits.forward, hload, fun m m' hm hm' => ?_,
    fun limit => ?_⟩
  · obtain ⟨hl, hinside⟩ := hat.loaded.reaches hbasic ⟨k, i, hi, hmark, hpc, hk⟩ hm
    exact hl.pc_lt_of_steps hbasic hforward hinside hm'
  · have hfinishes := hat.loaded.finishes hbasic hforward hi hmark hpc hk 0 limit
    have hle : b.code.instructionsFrom k ≤ c.artifact.listing.countP isInstructionLine := by
      rw [hlisting, Code.countP_listing, ← hcode]
      exact (List.drop_sublist k _).countP_le
    simp only [runClass, hload]
    exact ⟨hfinishes.1.trans (by omega), fun hlimit => hfinishes.2 (by omega)⟩

/-- Prints a text if a number is zero, and the number otherwise. -/
def zeroTest : Program where
  name := "Z"
  declarations := [⟨"INTEGER", "n"⟩]
  body := [.conditional "n" "EQ" "0" [.print (some (.text "\"zero\""))] [.print (some (.var "n"))]]

set_option maxRecDepth 8000 in
theorem compiled_program_finishes_zeroTest :
    ∃ c : Compilation,
      (zeroTest.compile (fun name _ => pure (.ok name) : ArtifactSink Empty (StateM Unit)) ()).1 =
        .ok c ∧
      ∀ input limit, (runClass c.artifact.bytes input {} limit).checks ≤ 13 ∧
        (13 ≤ limit → (runClass c.artifact.bytes input {} limit).error ≠ some .cancelled) := by
  have hok : resultIs (fun c => c.artifact.listing.countP isInstructionLine == 13) (zeroTest.compile
      (fun name _ => pure (.ok name) : ArtifactSink Empty (StateM Unit)) ()).1 = true := by cbv
  obtain ⟨c, hc, hcount⟩ := of_resultIs hok
  refine ⟨c, hc, fun input limit => ?_⟩
  obtain ⟨-, -, -, -, -, -, -, -, hfinishes⟩ := compiled_program_finishes hc input {}
  rw [beq_iff_eq.mp hcount] at hfinishes
  exact hfinishes limit

end ClassForge
