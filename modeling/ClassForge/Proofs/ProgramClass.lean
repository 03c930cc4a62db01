import ClassForge.Proofs.AssemblyLimits
import ClassForge.Proofs.EmittedProgram
import ClassForge.Proofs.WriterRun

/-! The class of a program. It begins with its constructor, takes the main method behind it, and is
written unless the pool is full. -/

namespace ClassForge

open ClassFile
open ConstantPool (Fails Fitting IsFull)

theorem Code.length_of_assemble {code : Code} {pool pool' : ConstantPool} {least : Int}
    {method : Method} (hv : pool.Valid) (h : code.assemble least pool = .ok method pool') :
    method.bytecode.length ≤ 65535 := by
  obtain ⟨-, -, placements, heights, length, deepest, hlayout, -, hencode, -⟩ := assemble_eq_ok h
  obtain ⟨-, -, harranged, hpos, hle⟩ := (layout_keeps code).of_ok hv trivial hlayout
  exact (assembled_of_encode harranged hpos hle hencode).1.bounded

namespace ClassWriter

variable {w w' : ClassWriter}

theorem onPool_eq_error {ε α : Type} {wrap : ε → ClassError} {x : EStateM ε ConstantPool α}
    {e : ClassError} (h : onPool wrap x w = .error e w') :
    ∃ cause pool, x w.pool = .error cause pool ∧ e = wrap cause ∧ w' = { w with pool } := by
  simp only [onPool] at h
  split at h
  · cases h
  · next cause pool hx =>
    cases h
    exact ⟨cause, pool, hx, rfl, rfl⟩

theorem methodIndexes_fails {ms : List WrittenMethod}
    (h : ∀ m ∈ ms, Fitting m.name ∧ Fitting m.descriptor) : Fails (methodIndexes ms) IsFull := by
  induction ms with
  | nil => exact .pure _
  | cons m rest ih =>
    obtain ⟨hname, hdescriptor⟩ := h m (by simp)
    exact (ConstantPool.utf8_fails hname).bind fun _ =>
      (ConstantPool.utf8_fails hdescriptor).bind fun _ =>
        (ih fun m' hm' => h m' (by simp [hm'])).bind fun _ => .pure _

/-- An open class whose methods keep to the limits is written unless its pool is full. -/
theorem bytes_fails {e : ClassError} (hopen : w.isFinished = false)
    (hnames : ∀ m ∈ w.methods.toList, Fitting m.name ∧ Fitting m.descriptor)
    (hframes : ∀ m ∈ w.methods.toList, exceedsFrame m = false) (h : bytes w = .error e w') :
    (∃ key, e = .pool (.overflow key)) ∧ 65534 < w'.pool.count := by
  have hget : (get : Writing ClassWriter) w = .ok w w := rfl
  simp only [bytes] at h
  rw [bind_eq_of_ok hget] at h
  simp only [hopen] at h
  have hcode : Fails (ConstantPool.utf8 codeAttributeName) IsFull :=
    ConstantPool.utf8_fails (by decide)
  rcases error_of_bind_eq_error h with h | ⟨codeIndex, w₁, hindex, h⟩
  · obtain ⟨cause, pool, hx, rfl, rfl⟩ := onPool_eq_error h
    obtain ⟨⟨key, rfl⟩, hfull⟩ := hcode _ _ _ hx
    exact ⟨⟨key, rfl⟩, hfull⟩
  · obtain ⟨pool₁, -, rfl⟩ := onPool_eq_ok hindex
    have hget₁ : (get : Writing ClassWriter) { w with pool := pool₁ } = .ok _ _ := rfl
    rw [bind_eq_of_ok hget₁] at h
    rcases error_of_bind_eq_error h with h | ⟨indexes, w₂, hindexes, h⟩
    · obtain ⟨cause, pool, hx, rfl, rfl⟩ := onPool_eq_error h
      obtain ⟨⟨key, rfl⟩, hfull⟩ := methodIndexes_fails hnames _ _ _ hx
      exact ⟨⟨key, rfl⟩, hfull⟩
    · obtain ⟨pool₂, -, rfl⟩ := onPool_eq_ok hindexes
      have hframe : w.methods.toList.find? exceedsFrame = none :=
        List.find?_eq_none.mpr fun m hm => by simp [hframes m hm]
      have hget₂ : (get : Writing ClassWriter) { w with pool := pool₂ } = .ok _ _ := rfl
      rw [bind_eq_of_ok hget₂] at h
      simp only [hframe] at h
      cases h

end ClassWriter

theorem constructor_frame {pool pool' : ConstantPool} {method : Method}
    (h : (ClassWriter.constructorCode objectClass).assemble 1 pool = .ok method pool') :
    method.maxStack = 1 ∧ method.maxLocals = 1 := by
  obtain ⟨-, -, placements, heights, length, deepest, -, hheights, -, hstack, hlocals⟩ :=
    Code.assemble_eq_ok h
  have hdeepest : (ClassWriter.constructorCode objectClass).stackHeights.map Prod.snd =
      .ok 1 := by cbv
  rw [hheights] at hdeepest
  cases hdeepest
  exact ⟨hstack, hlocals⟩

/-- A new class has a constructor within the limits, and no other method. -/
theorem Emitter.newClass_eq_ok {program : Bytes} {w : ClassWriter}
    (h : newClass program = .ok w) :
    w.Reached ∧ w.isFinished = false ∧ ∃ constructor : WrittenMethod,
      w.methods = #[constructor] ∧ constructor.name = constructorName ∧
      constructor.descriptor = noArgsDescriptor ∧
      ClassWriter.exceedsFrame constructor = false := by
  simp only [newClass] at h
  cases hnew : ClassWriter.new program objectClass with
  | error e =>
    simp only [hnew] at h
    cases h
  | ok w₀ =>
    simp only [hnew] at h
    obtain ⟨hsound, hmethods, hopen⟩ := ClassWriter.new_sound hnew
    split at h
    · next u w₂ hadd =>
      cases h
      obtain ⟨body, w₁, hbody, hadd⟩ := ok_of_bind_eq_ok hadd
      obtain ⟨_, _, hget, hbody⟩ := ok_of_bind_eq_ok hbody
      cases hget
      obtain ⟨pool, hassemble, rfl⟩ := ClassWriter.onPool_eq_ok hbody
      have hshort := Code.length_of_assemble hsound.valid hassemble
      -- The constructor is the first method, so its name is free.
      have hnone : ∀ m ∈ ({ w₀ with pool } : ClassWriter).methods.toList,
          (m.name, m.descriptor) ≠ (constructorName, noArgsDescriptor) := by
        simp [hmethods]
      have hok := ClassWriter.addMethod_eq_ok (w := { w₀ with pool }) hopen hnone accPublic body
      have hstep := ClassWriter.Step.addMethod { w₀ with pool } accPublic constructorName
        noArgsDescriptor (some body) (by simp; omega)
      rw [hadd] at hok
      rw [hadd] at hstep
      have hassembled := ClassWriter.Step.assemble w₀
        (ClassWriter.constructorCode w₀.superName) 1
      rw [hassemble] at hassembled
      cases hok
      refine ⟨⟨program, objectClass, w₀, hnew, (Relation.ReflTransGen.single hassembled).tail
        hstep⟩, hopen, ⟨accPublic, constructorName, noArgsDescriptor, body⟩, by simp [hmethods], rfl,
        rfl, ?_⟩
      rw [(ClassWriter.new_fields hnew).2.1] at hassemble
      obtain ⟨hstack, hlocals⟩ := constructor_frame hassemble
      simp [ClassWriter.exceedsFrame, hstack, hlocals]
    · cases h

end ClassForge
