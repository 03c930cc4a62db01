import ClassForge.Proofs.SafeActions

/-! The static checks suffice at run time. While a machine runs an assembled body, its stack has the
height that was computed for the instruction it is at, and none of the faults occurs that the checks
are there to rule out. -/

namespace ClassForge

/-- The instructions that the checks know enough about: opcodes without operands, reads of one
word fields, calls, and the making of objects. -/
def Instruction.IsBasic : Instruction → Prop
  | .simple a => ∃ op : Opcode, op.isBasic = true ∧ a = op.byte
  | .field a m => a = Opcode.getstatic.byte ∧ Descriptor.fieldWords m.descriptor = .ok 1
  | .invoke a _ => ∃ op, a = (Opcode.invoke op).byte
  | .type a _ => a = Opcode.new.byte
  | _ => True

/-- A structural fault, or an end of the run behind the last instruction. -/
def RunError.IsStructural : RunError → Prop
  | .fault _ cause => cause.IsStructural
  | .fellOff _ => True
  | _ => False

/-- Any number of steps leads from the one machine to the other. -/
abbrev Machine.Reaches : Machine → Machine → Prop :=
  Relation.ReflTransGen fun m m' => Machine.step m = .ok false m'

namespace Body

variable {b : Body} {m : Machine} {k : Nat}

theorem Loaded.of_sameFrame {m' : Machine} (hl : b.Loaded m) (hf : m.SameFrame m') : b.Loaded m' where
  code := hf.code.trans hl.code
  constants h := by rw [hf.constants]; exact hl.constants h
  room := by rw [hf.maxStack]; exact hl.room
  slots h := by rw [hf.locals]; exact hl.slots h

/-- The counter is at an instruction, and the stack has the height that is known for it. -/
def AtInstruction (b : Body) (m : Machine) : Prop :=
  ∃ k i, b.code.entries[k]? = some i ∧ i.isMark = false ∧ m.pc = b.start k ∧
    b.heights.at? k = some m.stack.size

/-- Marks are passed without a change of the counter or of the height. -/
theorem skip_marks (b : Body) (k : Nat) {h : Nat} (hk : b.heights.at? k = some h) :
    ∃ k' i, b.code.entries[k']? = some i ∧ i.isMark = false ∧ b.start k' = b.start k ∧
      b.heights.at? k' = some h := by
  obtain ⟨out, ⟨i, pops, pushes, next, hi, heffect, -, hout, hnext, hheights⟩, -⟩ := b.carries hk
  cases hmark : i.isMark with
  | false => exact ⟨k, i, hi, hmark, rfl, hk⟩
  | true =>
    cases i with
    | mark label =>
      cases heffect
      obtain ⟨k', hk', hn⟩ := except_bind_eq_ok.mp hnext
      cases hn
      obtain ⟨rfl, hlt⟩ := Code.lt_of_following hk'
      obtain ⟨p, data, -, -, -, -, -, -, hstart, -⟩ := b.assembled.locate hi
      have hnextHeight : b.heights.at? (k + 1) = some h := by
        rw [hheights (k + 1) (by simp), hout]
        simp
      obtain ⟨k', i', hi', hmark', hstart', hk''⟩ := b.skip_marks (k + 1) hnextHeight
      exact ⟨k', i', hi', hmark', hstart'.trans hstart, hk''⟩
    | _ => simp [Instruction.isMark] at hmark
termination_by b.code.entries.size - k
decreasing_by
  omega

/-- The counter is at an entry that can run directly after entry `k`, and the stack has the height
that is known for it. -/
def Follows (b : Body) (k : Nat) (m : Machine) : Prop :=
  ∃ i next j, b.code.entries[k]? = some i ∧ b.code.successors k i = .ok next ∧ j ∈ next ∧
    m.pc = b.start j ∧ b.heights.at? j = some m.stack.size

theorem Follows.atInstruction (h : b.Follows k m) : b.AtInstruction m := by
  obtain ⟨-, -, j, -, -, -, hpc, hj⟩ := h
  obtain ⟨k', i, hi, hmark, hstart, hk'⟩ := b.skip_marks j hj
  exact ⟨k', i, hi, hmark, hpc.trans hstart.symm, hk'⟩

/-- What a step at entry `k` may come to. -/
def Goes (b : Body) (k : Nat) : EStateM.Result Fault Machine Bool → Prop
  | .ok true _ => True
  | .ok false m' => b.Loaded m' ∧ b.Follows k m'
  | .error e _ => ¬ e.IsStructural

theorem goes_of_safe (hl : b.Loaded m) {x : Machine.Action Bool}
    (h : Machine.Safe x m fun _ m' => b.Follows k m') : b.Goes k (x m) := by
  unfold Machine.Safe at h
  cases hx : x m with
  | error e m' =>
    simp only [hx] at h
    exact h
  | ok returned m' =>
    simp only [hx] at h
    obtain ⟨hf, hfollows⟩ := h
    cases returned with
    | true => trivial
    | false => exact ⟨hl.of_sameFrame hf, hfollows⟩

theorem heights_at {i : Instruction} {h : Nat} (hi : b.code.entries[k]? = some i)
    (hk : b.heights.at? k = some h) :
    ∃ pops pushes next, i.effect = .ok (pops, pushes) ∧ pops ≤ h ∧ h - pops + pushes ≤ b.deepest ∧
      b.code.successors k i = .ok next ∧
      ∀ j ∈ next, b.heights.at? j = some (h - pops + pushes) := by
  obtain ⟨out, ⟨i', pops, pushes, next, hi', heffect, hpops, rfl, hnext, hheights⟩, hdeep⟩ :=
    b.carries hk
  rw [hi, Option.some.injEq] at hi'
  subst hi'
  exact ⟨pops, pushes, next, heffect, hpops, hdeep, hnext, hheights⟩

/-- An entry that has a height and is followed by the next one is followed by that one alone. -/
theorem successors_following {i : Instruction} {h : Nat} (hi : b.code.entries[k]? = some i)
    (hk : b.heights.at? k = some h)
    (hfollow : b.code.successors k i = (do return [← b.code.following k])) :
    b.code.successors k i = .ok [k + 1] := by
  obtain ⟨-, -, next, -, -, -, hnext, -⟩ := heights_at hi hk
  rw [hfollow] at hnext ⊢
  obtain ⟨k', hk', hn⟩ := except_bind_eq_ok.mp hnext
  obtain ⟨rfl, -⟩ := Code.lt_of_following hk'
  rw [hk']
  rfl

theorem heights_following {i : Instruction} {h : Nat} (hi : b.code.entries[k]? = some i)
    (hk : b.heights.at? k = some h)
    (hfollow : b.code.successors k i = (do return [← b.code.following k])) :
    ∃ pops pushes, i.effect = .ok (pops, pushes) ∧ pops ≤ h ∧ h - pops + pushes ≤ b.deepest ∧
      b.heights.at? (k + 1) = some (h - pops + pushes) := by
  obtain ⟨pops, pushes, next, heffect, hpops, hdeep, hnext, hheights⟩ := heights_at hi hk
  rw [successors_following hi hk hfollow] at hnext
  cases hnext
  exact ⟨pops, pushes, heffect, hpops, hdeep, hheights (k + 1) (by simp)⟩

/-- An action that leaves the counter behind the entry, and the height that is known there. -/
theorem goes_next (m₁ : Machine) (hl : b.Loaded m) {x : Machine.Action Unit} {i : Instruction}
    {h out : Nat} (hi : b.code.entries[k]? = some i) (hk : b.heights.at? k = some h)
    (hfollow : b.code.successors k i = (do return [← b.code.following k]))
    (hpc : m₁.pc = b.start (k + 1)) (hout : b.heights.at? (k + 1) = some out)
    (hx : Machine.Safe x m (m₁.Leaves out)) :
    b.Goes k ((do x; return false : Machine.Action Bool) m) := by
  have hnext := successors_following hi hk hfollow
  refine goes_of_safe hl (hx.bind fun _ m' _ hm' => .pure
    ⟨i, [k + 1], k + 1, hi, hnext, List.mem_singleton_self _, ?_, ?_⟩)
  · exact hm'.1.trans hpc
  · rw [hm'.2]
    exact hout

section Steps

variable (hl : b.Loaded m) (hpc : m.pc = b.start k) (hk : b.heights.at? k = some m.stack.size)
include hl hpc hk

theorem goes_simple {op : Opcode} (hop : op.isBasic = true)
    (hi : b.code.entries[k]? = some (.simple op.byte)) : b.Goes k (Machine.step m) := by
  obtain ⟨op', hop', hstep, hstart⟩ := hl.step_simple hpc hi
  rw [op.ofByte?_byte, Option.some.injEq] at hop'
  subst hop'
  rw [hstep]
  by_cases hreturn : op = .returnVoid
  · subst hreturn
    trivial
  · have hne : op.byte ≠ Opcode.returnVoid.byte := by
      intro heq
      have := congrArg Opcode.ofByte? heq
      rw [Opcode.ofByte?_byte, Opcode.ofByte?_byte] at this
      exact hreturn (Option.some.inj this)
    have hfollow : b.code.successors k (.simple op.byte) = (do return [← b.code.following k]) := by
      simp only [Code.successors, hne, if_false]
    obtain ⟨_, _, heffect, hpops, hdeep, hout⟩ := heights_following hi hk hfollow
    simp only [Instruction.effect, Opcode.popsOfByte, Opcode.pushesOfByte, op.ofByte?_byte,
      Option.map_some, Option.getD_some] at heffect
    cases heffect
    have hnext := successors_following hi hk hfollow
    refine goes_of_safe hl ((Machine.safe_execute hop hreturn m.pc hpops
      (Nat.le_trans hdeep hl.room)).imp fun returned m' hm' =>
        ⟨_, [k + 1], k + 1, hi, hnext, List.mem_singleton_self _, ?_, ?_⟩)
    · rw [hm'.2.1, hstart]
    · rw [hm'.2.2]
      exact hout

theorem goes_invoke {op : CallOp} {member : Member}
    (hi : b.code.entries[k]? = some (.invoke (Opcode.invoke op).byte member)) :
    b.Goes k (Machine.step m) := by
  obtain ⟨_, _, heffect, hpops, hdeep, hout⟩ := heights_following hi hk rfl
  obtain ⟨member', hrender, hstep, hoperand⟩ := hl.step_invoke hpc hi
  have hcall : (Opcode.invoke op).byte ≠ (Opcode.invoke .static).byte →
      b.Goes k ((do Machine.invoke op; return false : Machine.Action Bool) m) := by
    intro hne
    simp only [Instruction.effect, hne, if_false] at heffect
    split at heffect
    · rename_i args result hwords
      cases heffect
      exact goes_next { m with pc := b.start (k + 1) } hl hi hk rfl rfl hout
        (Machine.safe_invoke hoperand ⟨rfl, rfl, rfl, rfl⟩ hrender hwords hpops
          (Nat.le_trans hdeep hl.room))
    · cases heffect
  rw [hstep]
  cases op with
  | static => exact id
  | virtual => exact hcall (by decide)
  | special => exact hcall (by decide)

theorem goes_jump {op : JumpOp} {label : Label}
    (hi : b.code.entries[k]? = some (.jump op label)) : b.Goes k (Machine.step m) := by
  obtain ⟨pops, pushes, next, heffect, hpops, -, hnext, hheights⟩ := heights_at hi hk
  cases heffect
  cases op with
  | always =>
    obtain ⟨t, ht, hstep⟩ := hl.step_goto hpc hi
    cases Code.successors_goto hnext ht
    rw [hstep]
    exact ⟨hl.of_sameFrame ⟨rfl, rfl, rfl, rfl⟩, _, [t], t, hi, hnext, by simp, rfl,
      hheights t (by simp)⟩
  | when relation =>
    obtain ⟨t, taken, ht, hstep, htaken⟩ := hl.step_branch hpc hi
    cases Code.successors_branch hnext ht
    have hcompare : Machine.Safe (Machine.compare relation taken) { m with pc := b.start (k + 1) }
        fun _ m' => b.Follows k m' := by
      refine Machine.safe_compare relation hpops fun m' hframe hpc' hsize => ?_
      have hout : ∀ j ∈ [t, k + 1], b.heights.at? j = some m'.stack.size := by
        rw [hsize]
        exact hheights
      refine ⟨?_, _, _, k + 1, hi, hnext, by simp, hpc', hout _ (by simp)⟩
      unfold Machine.Safe
      rw [htaken m' hframe.code]
      exact ⟨⟨rfl, rfl, rfl, rfl⟩, _, _, t, hi, hnext, by simp, rfl, hout _ (by simp)⟩
    rw [hstep]
    have hl' : b.Loaded { m with pc := b.start (k + 1) } := hl.of_sameFrame ⟨rfl, rfl, rfl, rfl⟩
    exact goes_of_safe hl' (hcompare.bind fun _ m' _ hm' => .pure hm')

end Steps

/-- One step from an instruction leads to one that can run directly after it, ends the run or has a
fault that is not structural. -/
theorem Loaded.step_goes (hl : b.Loaded m) {i : Instruction}
    (hbasic : ∀ {k : Nat} {i : Instruction}, b.code.entries[k]? = some i → i.IsBasic)
    (hi : b.code.entries[k]? = some i) (hmark : i.isMark = false) (hpc : m.pc = b.start k)
    (hk : b.heights.at? k = some m.stack.size) : b.Goes k (Machine.step m) := by
  have hnext : b.Loaded { m with pc := b.start (k + 1) } := hl.of_sameFrame ⟨rfl, rfl, rfl, rfl⟩
  cases i with
  | mark label => simp [Instruction.isMark] at hmark
  | pushInt v =>
    obtain ⟨_, _, heffect, -, hdeep, hout⟩ := heights_following hi hk rfl
    cases heffect
    rw [hl.step_pushInt hpc hi]
    exact goes_next _ hnext hi hk rfl rfl hout
      (Machine.safe_push _ (Nat.le_trans hdeep hl.room))
  | pushText text =>
    obtain ⟨_, _, heffect, -, hdeep, hout⟩ := heights_following hi hk rfl
    cases heffect
    rw [hl.step_pushText hpc hi]
    exact goes_next _ hnext hi hk rfl rfl hout
      (Machine.safe_push _ (Nat.le_trans hdeep hl.room))
  | access op slot =>
    obtain ⟨_, _, heffect, hpops, hdeep, hout⟩ := heights_following hi hk rfl
    cases heffect
    rw [hl.step_access hpc hi]
    exact goes_next _ hnext hi hk rfl rfl hout
      (Machine.safe_access (hl.slots hi) hpops (Nat.le_trans hdeep hl.room))
  | field a member =>
    obtain ⟨rfl, hwords⟩ := hbasic hi
    obtain ⟨_, _, heffect, -, hdeep, hout⟩ := heights_following hi hk rfl
    simp only [Instruction.effect, hwords, if_true] at heffect
    cases heffect
    obtain ⟨member', -, hstep, hoperand⟩ := hl.step_getstatic hpc hi
    rw [hstep]
    exact goes_next { m with pc := b.start (k + 1) } hl hi hk rfl rfl hout
      (Machine.safe_getstatic hoperand ⟨rfl, rfl, rfl, rfl⟩ (Nat.le_trans hdeep hl.room))
  | type a name =>
    obtain rfl := hbasic hi
    obtain ⟨_, _, heffect, -, hdeep, hout⟩ := heights_following hi hk rfl
    cases heffect
    obtain ⟨index, hstep, hoperand, hc⟩ := hl.step_new hpc hi
    rw [hstep]
    exact goes_next { m with pc := b.start (k + 1) } hl hi hk rfl rfl hout
      (Machine.safe_newObject hoperand ⟨rfl, rfl, rfl, rfl⟩ hc (Nat.le_trans hdeep hl.room))
  | simple a =>
    obtain ⟨op, hop, rfl⟩ := hbasic hi
    exact goes_simple hl hpc hk hop hi
  | invoke a member =>
    obtain ⟨op, rfl⟩ := hbasic hi
    exact goes_invoke hl hpc hk hi
  | jump op label => exact goes_jump hl hpc hk hi

theorem Loaded.pc_lt (hl : b.Loaded m) (hat : b.AtInstruction m) : m.pc < m.code.size := by
  obtain ⟨k, i, hi, hmark, hpc, -⟩ := hat
  have hlt := b.assembled.arranged.start_lt_succ hi hmark
  have hle := b.assembled.arranged.start_le_length (k + 1)
  rw [hl.code, hpc]
  simp only [List.size_toArray, start]
  omega

/-- No number of steps leads to a structural fault. -/
theorem Loaded.runFrom_safe (hl : b.Loaded m)
    (hbasic : ∀ {k : Nat} {i : Instruction}, b.code.entries[k]? = some i → i.IsBasic)
    (hat : b.AtInstruction m) (checks limit : Nat) {e : RunError}
    (he : (m.runFrom checks limit).error = some e) : ¬ e.IsStructural := by
  induction limit generalizing m checks with
  | zero =>
    cases he
    exact id
  | succ limit ih =>
    have hlt := hl.pc_lt hat
    obtain ⟨k, i, hi, hmark, hpc, hk⟩ := hat
    have hgoes := hl.step_goes hbasic hi hmark hpc hk
    rw [Machine.runFrom, if_neg (by omega)] at he
    cases hstep : Machine.step m with
    | error cause m' =>
      rw [hstep] at hgoes
      simp only [hstep] at he
      cases he
      exact hgoes
    | ok returned m' =>
      rw [hstep] at hgoes
      cases returned with
      | true =>
        simp only [hstep] at he
        cases he
      | false =>
        simp only [hstep] at he
        exact ih hgoes.1 hgoes.2.atInstruction (checks + 1) he

theorem Loaded.reaches (hl : b.Loaded m)
    (hbasic : ∀ {k : Nat} {i : Instruction}, b.code.entries[k]? = some i → i.IsBasic)
    (hat : b.AtInstruction m) {m' : Machine} (hr : m.Reaches m') :
    b.Loaded m' ∧ b.AtInstruction m' := by
  induction hr with
  | refl => exact ⟨hl, hat⟩
  | tail _ hstep ih =>
    obtain ⟨hl', k, i, hi, hmark, hpc, hk⟩ := ih
    have hgoes := hl'.step_goes hbasic hi hmark hpc hk
    rw [hstep] at hgoes
    exact ⟨hgoes.1, hgoes.2.atInstruction⟩

end Body

end ClassForge
