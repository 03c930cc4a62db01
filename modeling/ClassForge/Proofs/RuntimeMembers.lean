import ClassForge.Compile.Emission
import ClassForge.Proofs.AssembledBody

/-! The members that the runtime supports. Each is told apart from all others by its rendered form,
and takes and leaves as many stack words as its descriptor says. -/

namespace ClassForge

theorem split_unique {α : Type} [BEq α] [LawfulBEq α] {x : α} {a a' b b' : List α}
    (h : a ++ x :: b = a' ++ x :: b') (hcount : (a' ++ x :: b').count x = 1) :
    a = a' ∧ b = b' := by
  have hcount' : (a ++ x :: b).count x = 1 := h ▸ hcount
  simp only [List.count_append, List.count_cons_self] at hcount hcount'
  have ha : x ∉ a := List.count_eq_zero.mp (by omega)
  have ha' : x ∉ a' := List.count_eq_zero.mp (by omega)
  rcases List.append_eq_append_iff.mp h with ⟨c, hc, hb⟩ | ⟨c, hc, hb⟩
  · cases c with
    | nil => simp_all
    | cons y c =>
      simp only [List.cons_append, List.cons.injEq] at hb
      subst hc
      simp [hb.1] at ha'
  · cases c with
    | nil => simp_all
    | cons y c =>
      simp only [List.cons_append, List.cons.injEq] at hb
      subst hc
      simp [hb.1] at ha

namespace Member

/-- No part of the member holds the byte. -/
def Lacks (m : Member) (byte : UInt8) : Prop :=
  (m.owner ++ m.name ++ m.descriptor).count byte = 0

instance (m : Member) (byte : UInt8) : Decidable (m.Lacks byte) :=
  inferInstanceAs (Decidable (_ = _))

theorem render_eq (m : Member) :
    m.render = m.owner ++ 0x2e :: (m.name ++ 0x3a :: m.descriptor) := by
  have hdot : ("." : Bytes) = [0x2e] := by decide
  have hcolon : (":" : Bytes) = [0x3a] := by decide
  simp [render, hdot, hcolon]

theorem callKey_eq (m : Member) : m.callKey = m.owner ++ 0x2e :: (m.name ++ m.descriptor) := by
  have hdot : ("." : Bytes) = [0x2e] := by decide
  simp [callKey, hdot]

/-- A member without dots and colons is the only one that is rendered as it is. -/
theorem eq_of_render {m m' : Member} (h : m.render = m'.render) (hdot : m'.Lacks 0x2e)
    (hcolon : m'.Lacks 0x3a) : m = m' := by
  simp only [Lacks, List.count_append] at hdot hcolon
  rw [render_eq, render_eq] at h
  obtain ⟨howner, hrest⟩ := split_unique h (by
    simp only [List.count_append, List.count_cons_self, List.count_cons]
    simp
    omega)
  obtain ⟨hname, hdescriptor⟩ := split_unique hrest (by
    simp only [List.count_append, List.count_cons_self]
    omega)
  cases m
  cases m'
  simp_all

def isAscii (m : Member) : Bool :=
  m.owner.isAscii && m.name.isAscii && m.descriptor.isAscii

theorem repaired_of_isAscii {m : Member} (h : m.isAscii = true) : m.repaired = m := by
  simp only [isAscii, Bool.and_eq_true] at h
  simp only [repaired, Utf8.repair_of_isAscii h.1.1, Utf8.repair_of_isAscii h.1.2,
    Utf8.repair_of_isAscii h.2]

/-- A method of the runtime: its parts are plain, and its descriptor has the only parenthesis that
opens. -/
structure IsPlain (m : Member) : Prop where
  ascii : m.isAscii = true
  noDot : m.Lacks 0x2e
  noColon : m.Lacks 0x3a
  head : m.descriptor.head? = some 0x28
  once : (m.name ++ m.descriptor).count 0x28 = 1

theorem IsPlain.eq_of_render {m known : Member} (hk : known.IsPlain)
    (h : m.render = known.render) : m = known :=
  Member.eq_of_render h hk.noDot hk.noColon

theorem isAscii_append {s t : Bytes} : (s ++ t).isAscii = true ↔ s.isAscii = true ∧ t.isAscii = true := by
  simp [Bytes.isAscii]

theorem split_at_parenthesis {name name' descriptor descriptor' : Bytes}
    (h : name ++ descriptor = name' ++ descriptor') (hd : descriptor.head? = some 0x28)
    (hd' : descriptor'.head? = some 0x28) (honce : (name' ++ descriptor').count 0x28 = 1) :
    name = name' ∧ descriptor = descriptor' := by
  cases descriptor with
  | nil => simp at hd
  | cons x d =>
    cases descriptor' with
    | nil => simp at hd'
    | cons x' d' =>
      simp only [List.head?_cons, Option.some.injEq] at hd hd'
      subst hd hd'
      obtain ⟨hname, hrest⟩ := split_unique h honce
      exact ⟨hname, by rw [hrest]⟩

/-- A method that is found under the key of a method of the runtime is that method. -/
theorem IsPlain.eq_of_callKey {m m' known : Member} (hk : known.IsPlain)
    (hrender : m'.render = m.render) (hkey : m'.repaired.callKey = known.callKey)
    (hd : m.descriptor.head? = some 0x28) : m = known := by
  have hascii := hk.ascii
  simp only [isAscii, Bool.and_eq_true] at hascii
  have hdot := hk.noDot
  have hcolon := hk.noColon
  simp only [Lacks, List.count_append] at hdot hcolon
  rw [callKey_eq, callKey_eq] at hkey
  obtain ⟨howner, hrest⟩ := split_unique hkey (by
    simp only [List.count_append, List.count_cons_self]
    omega)
  have hparts : (Utf8.repair m'.name ++ Utf8.repair m'.descriptor).isAscii = true := by
    have hr : Utf8.repair m'.name ++ Utf8.repair m'.descriptor = known.name ++ known.descriptor := hrest
    rw [hr]
    exact isAscii_append.mpr ⟨hascii.1.2, hascii.2⟩
  obtain ⟨hname, hdescriptor⟩ := isAscii_append.mp hparts
  have howner' : m'.owner = known.owner := Utf8.eq_of_repair_isAscii hascii.1.1 howner
  have hname' := Utf8.eq_of_repair_isAscii hname rfl
  have hdescriptor' := Utf8.eq_of_repair_isAscii hdescriptor rfl
  have hrest' : m'.name ++ m'.descriptor = known.name ++ known.descriptor := by
    rw [hname', hdescriptor']
    exact hrest
  have hlacks : ∀ byte, known.Lacks byte → m'.Lacks byte := by
    intro byte h
    simp only [Lacks, List.append_assoc, howner', hrest'] at h ⊢
    exact h
  have heq : m = m' := Member.eq_of_render hrender.symm (hlacks _ hk.noDot) (hlacks _ hk.noColon)
  subst heq
  obtain ⟨hn, hd⟩ := split_at_parenthesis hrest' hd hk.head hk.once
  cases m
  cases known
  exact Member.mk.injEq .. ▸ ⟨howner', hn, hd⟩

end Member

namespace Emission

theorem isPlain_scannerInit : scannerInit.IsPlain :=
  ⟨by decide, by decide, by decide, by decide, by decide⟩

theorem isPlain_nextInt : nextInt.IsPlain :=
  ⟨by decide, by decide, by decide, by decide, by decide⟩

theorem isPlain_nextLine : nextLine.IsPlain :=
  ⟨by decide, by decide, by decide, by decide, by decide⟩

theorem isPlain_println (type : VarType) : (println type).IsPlain := by
  cases type <;> exact ⟨by decide, by decide, by decide, by decide, by decide⟩

end Emission

end ClassForge
