import ClassForge.Proofs.BodyLayout
import ClassForge.Proofs.ClassRoundTrip

/-! The life of a class writer. Whatever is done with it, its pool stays valid, its names stay in
their places and no two of its methods are the same. -/

namespace ClassForge

namespace ConstantPool

/-- A request to a pool. -/
inductive Request where
  | utf8 (text : Bytes)
  | integer (value : Int32)
  | stringRef (text : Bytes)
  | classRef (name : Bytes)
  | nameAndType (name descriptor : Bytes)
  | fieldRef (member : Member)
  | methodRef (member : Member)

def Request.perform : Request → Pooled Nat
  | utf8 text => ConstantPool.utf8 text
  | integer value => ConstantPool.integer value
  | stringRef text => ConstantPool.stringRef text
  | classRef name => ConstantPool.classRef name
  | nameAndType name descriptor => ConstantPool.nameAndType name descriptor
  | fieldRef m => ConstantPool.fieldRef m.owner m.name m.descriptor
  | methodRef m => ConstantPool.methodRef m.owner m.name m.descriptor

theorem Request.perform_keeps (r : Request) :
    Keeps (fun _ => True) r.perform fun _ _ => True := by
  cases r with
  | utf8 text => exact (utf8_keeps text).imp (fun _ h => h) fun _ _ _ => trivial
  | integer value => exact (integer_keeps value).imp (fun _ h => h) fun _ _ _ => trivial
  | stringRef text => exact (stringRef_keeps text).imp (fun _ h => h) fun _ _ _ => trivial
  | classRef name => exact (classRef_keeps name).imp (fun _ h => h) fun _ _ _ => trivial
  | nameAndType name descriptor =>
    exact (nameAndType_keeps name descriptor).imp (fun _ h => h) fun _ _ _ => trivial
  | fieldRef m => exact (fieldRef_keeps m).imp (fun _ h => h) fun _ _ _ => trivial
  | methodRef m => exact (methodRef_keeps m).imp (fun _ h => h) fun _ _ _ => trivial

theorem Keeps.state {ε α : Type} {x : EStateM ε ConstantPool α} {post : α → ConstantPool → Prop}
    (h : Keeps (fun _ => True) x post) {pool : ConstantPool} (hv : pool.Valid) :
    (stateAfter (x pool)).Valid ∧ pool.Within (stateAfter (x pool)) := by
  cases hx : x pool with
  | ok a pool' =>
    obtain ⟨hv', hw, -⟩ := h.of_ok hv trivial hx
    exact ⟨hv', hw⟩
  | error e pool' => exact h.of_error hv trivial hx

end ConstantPool

namespace ClassWriter

/-- What can be done with a class writer before it is written out. A method whose attribute needs
more than 2^32 bytes cannot be written. -/
inductive Step : ClassWriter → ClassWriter → Prop where
  | request (w : ClassWriter) (r : ConstantPool.Request) :
      Step w { w with pool := stateAfter (r.perform w.pool) }
  | assemble (w : ClassWriter) (code : Code) (least : Int) :
      Step w { w with pool := stateAfter (code.assemble least w.pool) }
  | addMethod (w : ClassWriter) (access : UInt16) (name descriptor : Bytes) (body : Option Method)
      (hshort : ∀ method ∈ body, method.bytecode.length + 12 < 4294967296) :
      Step w (stateAfter (addMethod access name descriptor body w))
  | setAccess (w : ClassWriter) (access : UInt16) : Step w { w with access }

abbrev Steps : ClassWriter → ClassWriter → Prop :=
  Relation.ReflTransGen Step

/-- The writer has been made of a new one. -/
def Reached (w : ClassWriter) : Prop :=
  ∃ name superName w₀, new name superName = .ok w₀ ∧ Steps w₀ w

theorem Sound.of_within {w : ClassWriter} (hw : w.Sound) {pool : ConstantPool} (hv : pool.Valid)
    (h : w.pool.Within pool) : Sound { w with pool } :=
  ⟨hv, hw.this.mono h, hw.super.mono h, hw.short, hw.distinct⟩

theorem new_sound {name superName : Bytes} {w : ClassWriter} (h : new name superName = .ok w) :
    w.Sound ∧ w.methods = #[] ∧ w.isFinished = false := by
  have hkeeps : ConstantPool.Keeps (fun _ => True)
      (do
        let thisIndex ← ConstantPool.classRef name
        let superIndex ← ConstantPool.classRef superName
        return (thisIndex, superIndex) : ConstantPool.Pooled (Nat × Nat))
      fun indexes pool => pool.Denotes indexes.1 (.classRef name) ∧
        pool.Denotes indexes.2 (.classRef superName) := by
    refine (ConstantPool.classRef_keeps name).bind fun i => ?_
    have hsuper := (ConstantPool.classRef_keeps superName).frame
      (fun hw h => ConstantPool.Denotes.mono (i := i) (c := .classRef name) h hw)
    exact (hsuper.imp (fun _ h => ⟨trivial, h⟩) fun _ _ h => h).bind fun j =>
      .pure fun _ h => ⟨h.2, h.1⟩
  simp only [new] at h
  split at h
  · rename_i thisIndex superIndex pool hindexes
    cases h
    obtain ⟨hv, -, hthis, hsuper⟩ := hkeeps.of_ok .empty trivial hindexes
    exact ⟨⟨hv, hthis, hsuper, by simp, by simp⟩, rfl, rfl⟩
  · cases h

theorem new_fields {name superName : Bytes} {w : ClassWriter} (h : new name superName = .ok w) :
    w.name = name ∧ w.superName = superName ∧
      w.access = ClassFile.accPublic ||| ClassFile.accSuper := by
  simp only [new] at h
  split at h
  · cases h
    exact ⟨rfl, rfl, rfl⟩
  · cases h

theorem any_eq_false {w : ClassWriter} {name descriptor : Bytes} :
    (w.methods.any fun m => m.name == name && m.descriptor == descriptor) = false ↔
      ∀ m ∈ w.methods.toList, (m.name, m.descriptor) ≠ (name, descriptor) := by
  rw [← Array.any_toList, List.any_eq_false]
  simp

theorem addMethod_eq_ok {w : ClassWriter} {name descriptor : Bytes} (hopen : w.isFinished = false)
    (hnew : ∀ m ∈ w.methods.toList, (m.name, m.descriptor) ≠ (name, descriptor)) (access : UInt16)
    (method : Method) :
    addMethod access name descriptor (some method) w =
      .ok () { w with methods := w.methods.push ⟨access, name, descriptor, method⟩ } := by
  have hget : (get : Writing ClassWriter) w = .ok w w := rfl
  simp only [addMethod]
  rw [bind_eq_of_ok hget]
  simp only [hopen, any_eq_false.mpr hnew, Bool.false_eq_true, if_false]
  rfl

theorem addMethod_cases (access : UInt16) (name descriptor : Bytes) (body : Option Method)
    (w : ClassWriter) :
    stateAfter (addMethod access name descriptor body w) = w ∨ ∃ method, body = some method ∧
      (∀ m ∈ w.methods.toList, (m.name, m.descriptor) ≠ (name, descriptor)) ∧
      stateAfter (addMethod access name descriptor body w) =
        { w with methods := w.methods.push ⟨access, name, descriptor, method⟩ } := by
  have hget : (get : Writing ClassWriter) w = .ok w w := rfl
  by_cases hopen : w.isFinished = false
  · cases body with
    | none =>
      left
      simp only [addMethod]
      rw [bind_eq_of_ok hget]
      simp only [hopen, Bool.false_eq_true, if_false]
      rfl
    | some method =>
      by_cases hnew : ∀ m ∈ w.methods.toList, (m.name, m.descriptor) ≠ (name, descriptor)
      · right
        rw [addMethod_eq_ok hopen hnew]
        exact ⟨method, rfl, hnew, rfl⟩
      · left
        rw [← any_eq_false, Bool.not_eq_false] at hnew
        simp only [addMethod]
        rw [bind_eq_of_ok hget]
        simp only [hopen, hnew, Bool.false_eq_true, if_false, if_true]
        rfl
  · left
    rw [Bool.not_eq_false] at hopen
    simp only [addMethod]
    rw [bind_eq_of_ok hget]
    simp only [hopen, if_true]
    rfl

theorem Step.sound {w w' : ClassWriter} (h : Step w w') (hw : w.Sound) : w'.Sound := by
  cases h with
  | request r =>
    obtain ⟨hv, hwithin⟩ := r.perform_keeps.state hw.valid
    exact hw.of_within hv hwithin
  | assemble code least =>
    obtain ⟨hv, hwithin⟩ := (code.assemble_keeps least).state hw.valid
    exact hw.of_within hv hwithin
  | setAccess access => exact ⟨hw.valid, hw.this, hw.super, hw.short, hw.distinct⟩
  | addMethod access name descriptor body hshort =>
    rcases addMethod_cases access name descriptor body w with heq | ⟨method, rfl, hnew, heq⟩
    · rw [heq]
      exact hw
    · rw [heq]
      refine ⟨hw.valid, hw.this, hw.super, fun m hm => ?_, ?_⟩
      · simp only [Array.toList_push, List.mem_append, List.mem_singleton] at hm
        rcases hm with hm | rfl
        · exact hw.short m hm
        · exact hshort method rfl
      · simp only [Array.toList_push, List.map_append, List.map_cons, List.map_nil]
        refine List.Nodup.append hw.distinct (by simp) ?_
        simpa [List.disjoint_singleton] using hnew

theorem Step.within {w w' : ClassWriter} (h : Step w w') (hw : w.Sound) :
    w.pool.Within w'.pool := by
  cases h with
  | request r => exact (r.perform_keeps.state hw.valid).2
  | assemble code least => exact ((code.assemble_keeps least).state hw.valid).2
  | setAccess access => exact .refl _
  | addMethod access name descriptor body hshort =>
    rcases addMethod_cases access name descriptor body w with heq | ⟨method, -, -, heq⟩
    · rw [heq]
      exact .refl _
    · rw [heq]
      exact .refl _

theorem Steps.sound {w w' : ClassWriter} (h : Steps w w') (hw : w.Sound) :
    w'.Sound ∧ w.pool.Within w'.pool := by
  induction h with
  | refl => exact ⟨hw, .refl _⟩
  | tail _ hstep ih => exact ⟨hstep.sound ih.1, ih.2.trans (hstep.within ih.1)⟩

theorem Reached.sound {w : ClassWriter} (h : w.Reached) : w.Sound := by
  obtain ⟨name, superName, w₀, hnew, hsteps⟩ := h
  exact (hsteps.sound (new_sound hnew).1).1

end ClassWriter

end ClassForge
