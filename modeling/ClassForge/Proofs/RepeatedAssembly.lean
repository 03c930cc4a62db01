import ClassForge.Proofs.AssemblyRoundTrip
import ClassForge.Proofs.StackAnalysis

/-! Assembly repeats itself. A sequence like one that has been assembled needs no new constants, so
its instructions have the same sizes and its labels the same positions, however the pool has grown
since. -/

namespace ClassForge

open ConstantPool (Request after)

namespace Instruction

/-- The instructions differ in their labels at most, and those correspond. -/
inductive Alike (same : Label → Label → Prop) : Instruction → Instruction → Prop
  | plain {i : Instruction} (h : i.isPlain = true) : Alike same i i
  | jump (op : JumpOp) {label label' : Label} (h : same label label') :
      Alike same (.jump op label) (.jump op label')
  | mark {label label' : Label} (h : same label label') : Alike same (.mark label) (.mark label')

variable {same : Label → Label → Prop} {i i' : Instruction}

theorem Alike.effect_eq (h : i.Alike same i') : i'.effect = i.effect := by
  cases h <;> rfl

theorem Alike.measure_eq (h : i.Alike same i') : Layout.measure i' = Layout.measure i := by
  cases h <;> rfl

theorem Alike.locals?_eq (h : i.Alike same i') : i'.locals? = i.locals? := by
  cases h <;> rfl

end Instruction

/-! The pool answers the second layout as it answered the first. -/

namespace Layout

variable {pool pool' p : ConstantPool} {i : Instruction} {r : Nat × Nat}

theorem request_of_answer {x : ConstantPool.Pooled Nat} {size : Nat → Nat}
    (h : (request x >>= fun index => pure (size index, index)) pool = .ok r pool')
    (hx : x p = .ok r.2 p) :
    (request x >>= fun index => pure (size index, index)) p = .ok r p := by
  obtain ⟨index, pool₁, -, hpure⟩ := ok_of_bind_eq_ok h
  cases hpure
  exact bind_eq_of_ok (adaptExcept_eq_ok.mpr hx) _

/-- An instruction is measured alike wherever its request has the same answer. -/
theorem measure_of_answer (h : measure i pool = .ok r pool')
    (hq : ∀ q, i.request? = some q → q.perform p = .ok r.2 p) : measure i p = .ok r p := by
  cases i with
  | mark label =>
    cases h
    rfl
  | jump op label =>
    cases h
    rfl
  | simple op =>
    by_cases hop : (Opcode.ofByte? op).isSome = true
    · simp only [measure, hop, if_true] at h ⊢
      cases h
      rfl
    · simp only [measure, hop] at h
      cases h
  | access op slot =>
    simp only [measure] at h ⊢
    repeat' split at h
    all_goals cases h
    all_goals simp only [*, if_true, if_false]
    all_goals rfl
  | pushInt value =>
    by_cases hshort : isShortSized value.toInt = true
    · simp only [measure, hshort, if_true] at h ⊢
      repeat' split at h
      all_goals cases h
      all_goals simp only [*, if_true, if_false]
      all_goals rfl
    · have hlarge : ¬ (-1 ≤ value.toInt ∧ value.toInt ≤ 5) ∧
          ¬ isByteSized value.toInt = true := by
        simp only [isShortSized, isByteSized, Bool.and_eq_true, decide_eq_true_eq] at hshort ⊢
        omega
      simp only [measure, hlarge.1, hlarge.2, hshort, if_false] at h ⊢
      exact request_of_answer h (hq (.integer value) (by simp [Instruction.request?, hshort]))
  | pushText text => exact request_of_answer h (hq (.stringRef text) rfl)
  | field op m => exact request_of_answer h (hq (.fieldRef m) rfl)
  | invoke op m => exact request_of_answer h (hq (.methodRef m) rfl)
  | type op name => exact request_of_answer h (hq (.classRef name) rfl)

theorem measure_again (hv : pool.Valid) (h : measure i pool = .ok r pool') (later : List Request) :
    measure i (after later pool') = .ok r (after later pool') := by
  refine measure_of_answer h fun q hq => ?_
  rcases measure_eq_ok h with ⟨hnone, -⟩ | ⟨q', hq', hperform⟩
  · rw [hnone] at hq
    cases hq
  · rw [hq] at hq'
    cases hq'
    exact Request.perform_again hv hperform later

theorem arrange_again {same : Label → Label → Prop} {instructions instructions' : List Instruction}
    (hsame : List.Forall₂ (Instruction.Alike same) instructions instructions')
    {done : Array Placement} {position : Nat} {r : Array Placement × Nat} (hv : pool.Valid)
    (h : arrange done position instructions pool = .ok r pool') (later : List Request) :
    arrange done position instructions' (after later pool') = .ok r (after later pool') := by
  induction hsame generalizing done position pool with
  | nil =>
    cases h
    rfl
  | @cons i i' rest rest' halike _ ih =>
    obtain ⟨⟨size, index⟩, pool₁, hmeasure, hrest⟩ := ok_of_bind_eq_ok h
    have hmeasure := adaptExcept_eq_ok.mp hmeasure
    have hv₁ := ((measure_keeps i).of_ok hv trivial hmeasure).1
    -- What the rest asked for comes between the first answer and the second.
    obtain ⟨between, -, rfl, -⟩ := arrange_answered hv₁ hrest
    have hagain := measure_again hv hmeasure (between ++ later)
    rw [after, List.foldl_append, ← halike.measure_eq] at hagain
    exact (bind_eq_of_ok (adaptExcept_eq_ok.mpr hagain) _).trans (ih hv₁ hrest)

end Layout

namespace Code

/-- The labels mark the same index, the one in the first sequence and the other in the second. -/
def SamePlace (code code' : Code) (label label' : Label) : Prop :=
  code'.owns label' = true ∧ code'.place? label' = code.place? label

/-- The second sequence is open and has all its labels placed. Its entries are those of the first,
with labels of its own at the same indexes. -/
structure Twin (code code' : Code) : Prop where
  isOpen : code'.isSealed = false
  placed : ∀ label, code'.owns label = true → (code'.place? label).isSome = true
  entries : List.Forall₂ (Instruction.Alike (code.SamePlace code')) code.entries.toList
    code'.entries.toList

variable {code code' : Code} {pool pool' : ConstantPool}

theorem layout_again (hentries : List.Forall₂ (Instruction.Alike (code.SamePlace code'))
      code.entries.toList code'.entries.toList)
    (hv : pool.Valid) {r : Array Placement × Nat} (h : code.layout pool = .ok r pool')
    (later : List Request) : code'.layout (after later pool') = .ok r (after later pool') := by
  obtain ⟨⟨placements, length⟩, pool₁, harrange, hrest⟩ := ok_of_bind_eq_ok h
  dsimp only at hrest
  split at hrest
  · cases hrest
  next hnonempty =>
  split at hrest
  · cases hrest
  next hbounded =>
  cases hrest
  refine (bind_eq_of_ok (Layout.arrange_again hentries hv harrange later) _).trans ?_
  simp only [hnonempty, hbounded, if_false]
  rfl

/-! The bytes are the same, since the labels have the same positions. -/

theorem instructionBytes_eq_ok {i i' : Instruction} (halike : i.Alike (code.SamePlace code') i')
    {placements : Array Placement} {length : Nat} {p : Placement} {data : Bytes}
    (hdata : instructionBytes code placements length p i = .ok data) :
    instructionBytes code' placements length p i' = .ok data := by
  cases halike with
  | plain hplain => cases i <;> first | exact hdata | cases hplain
  | @jump op label label' hsame =>
    have hposition : code'.position? placements label' = code.position? placements label := by
      rw [position?, position?, hsame.2]
    simp only [instructionBytes, jumpBytes, hposition] at hdata ⊢
    cases htarget : code.position? placements label with
    | none =>
      rw [htarget] at hdata
      cases hdata
    | some target =>
      simp only [htarget] at hdata ⊢
      split at hdata
      · cases hdata
      · next hinside => rw [if_neg hinside, hdata]
  | mark hsame => exact hdata

theorem encodeFrom_alike {is is' : List Instruction}
    (hsame : List.Forall₂ (Instruction.Alike (code.SamePlace code')) is is')
    {placements : Array Placement} {length k : Nat} {ps : List Placement} {out out' : Array UInt8}
    (hout : encodeFrom code placements length out k (is.zip ps) = .ok out') :
    encodeFrom code' placements length out k (is'.zip ps) = .ok out' := by
  induction hsame generalizing ps out k with
  | nil => exact hout
  | cons halike _ ih =>
    cases ps with
    | nil => exact hout
    | cons p ps =>
      simp only [List.zip_cons_cons, encodeFrom] at hout ⊢
      split at hout
      · cases hout
      next data hdata =>
      simp only [instructionBytes_eq_ok halike hdata]
      split at hout
      · cases hout
      next hsize =>
      rw [if_neg hsize]
      exact ih hout

theorem encode_eq_ok (hentries : List.Forall₂ (Instruction.Alike (code.SamePlace code'))
      code.entries.toList code'.entries.toList)
    {placements : Array Placement} {length : Nat} {bytecode : Bytes}
    (hbytes : code.encode placements length = .ok bytecode) :
    code'.encode placements length = .ok bytecode := by
  cases hout : encodeFrom code placements length #[] 0
      (code.entries.toList.zip placements.toList) with
  | error e =>
    rw [encode, hout] at hbytes
    cases hbytes
  | ok out =>
    rw [encode, hout] at hbytes
    rw [encode, encodeFrom_alike hentries hout, hbytes]

theorem assemble_of_stages {placements : Array Placement} {heights : Heights}
    {length deepest : Nat} {bytecode : Bytes} (hopen : code.isSealed = false)
    (hverified : code.verifyLabels = .ok ())
    (hlayout : code.layout pool = .ok (placements, length) pool')
    (hheights : code.stackHeights = .ok (heights, deepest))
    (hencode : code.encode placements length = .ok bytecode) (least : Int) :
    code.assemble least pool = .ok ⟨bytecode, deepest, code.maxLocals least⟩ pool' := by
  have hlift {α : Type} (a : α) (p : ConstantPool) : assemble.liftExcept (.ok a) p = .ok a p := rfl
  simp only [assemble, hopen, hverified, hheights, Bool.false_eq_true, if_false]
  rw [bind_eq_of_ok (hlift () pool), bind_eq_of_ok hlayout, bind_eq_of_ok (hlift _ pool')]
  simp only [hencode]
  rw [bind_eq_of_ok (hlift bytecode pool')]
  rfl

namespace Twin

variable (h : code.Twin code')
include h

theorem size_eq : code'.entries.size = code.entries.size := by
  simpa using h.entries.length_eq.symm

theorem entry {k : Nat} {i : Instruction} (hi : code.entries[k]? = some i) :
    ∃ i', code'.entries[k]? = some i' ∧ i.Alike (code.SamePlace code') i' := by
  obtain ⟨hk, rfl⟩ := Array.getElem?_eq_some_iff.mp hi
  have hk' : k < code'.entries.size := h.size_eq ▸ hk
  have halike := (List.forall₂_iff_get.mp h.entries).2 k (by simpa using hk) (by simpa using hk')
  exact ⟨code'.entries[k], Array.getElem?_eq_getElem hk', by simpa using halike⟩

theorem verifyLabels_eq : code'.verifyLabels = .ok () := by
  have hplaced : code'.unplaced? = none := by
    rw [unplaced?, Option.map_eq_none_iff, Array.findIdx?_eq_none_iff]
    intro place hplace
    obtain ⟨n, hn⟩ := Array.getElem?_of_mem hplace
    have hlt := (Array.getElem?_eq_some_iff.mp hn).1
    have hsome := h.placed ⟨code'.serial, n⟩ ((owns_iff _ _).mpr ⟨rfl, hlt⟩)
    rw [place?, hn, Option.join_some] at hsome
    simpa using hsome
  have howned : code'.entries.findIdx? code'.isForeignJump = none := by
    rw [Array.findIdx?_eq_none_iff]
    intro i' hi'
    obtain ⟨k, hk⟩ := Array.getElem?_of_mem hi'
    have hlt := (Array.getElem?_eq_some_iff.mp hk).1
    obtain ⟨i, hi⟩ : ∃ i, code.entries[k]? = some i :=
      ⟨_, Array.getElem?_eq_getElem (h.size_eq ▸ hlt)⟩
    obtain ⟨i'', hi'', halike⟩ := h.entry hi
    cases hk.symm.trans hi''
    cases halike with
    | plain hplain => cases i' <;> first | rfl | cases hplain
    | jump op hsame => simp [isForeignJump, hsame.1]
    | mark hsame => rfl
  simp only [verifyLabels, hplaced, howned]

theorem maxLocals_eq (least : Int) : code'.maxLocals least = code.maxLocals least := by
  have hlocals : ∀ {is is' : List Instruction},
      List.Forall₂ (Instruction.Alike (code.SamePlace code')) is is' →
      is'.filterMap Instruction.locals? = is.filterMap Instruction.locals? := by
    intro is is' hsame
    induction hsame with
    | nil => rfl
    | cons halike _ ih => simp only [List.filterMap_cons, halike.locals?_eq, ih]
  rw [maxLocals, maxLocals, hlocals h.entries]

/-! The stack is followed along the same entries. -/

theorem destination_eq_ok {label label' : Label} (hsame : code.SamePlace code' label label')
    {target : Nat} (ht : code.destination label = .ok target) :
    code'.destination label' = .ok target := by
  simp only [destination, hsame.2, h.size_eq] at ht ⊢
  cases hplace : code.place? label with
  | none =>
    rw [hplace] at ht
    cases ht
  | some t =>
    simp only [hplace] at ht ⊢
    split at ht
    · next hlt => rw [if_pos hlt, ht]
    · cases ht

theorem successors_eq_ok {i i' : Instruction} (halike : i.Alike (code.SamePlace code') i')
    {k : Nat} {next : List Nat} (hnext : code.successors k i = .ok next) :
    code'.successors k i' = .ok next := by
  have hfollowing : code'.following k = code.following k := by
    simp only [following, h.size_eq]
  cases halike with
  | plain hplain =>
    cases i with
    | jump op label => cases hplain
    | _ =>
      simp only [successors, hfollowing] at hnext ⊢
      exact hnext
  | jump op hsame =>
    cases op with
    | always =>
      obtain ⟨target, ht, hpure⟩ := except_bind_eq_ok.mp hnext
      exact except_bind_eq_ok.mpr ⟨target, h.destination_eq_ok hsame ht, hpure⟩
    | when relation =>
      obtain ⟨target, ht, hrest⟩ := except_bind_eq_ok.mp hnext
      rw [← hfollowing] at hrest
      exact except_bind_eq_ok.mpr ⟨target, h.destination_eq_ok hsame ht, hrest⟩
  | mark hsame =>
    simp only [successors, hfollowing] at hnext ⊢
    exact hnext

theorem visit_eq_ok {s t : Survey} {k : Nat} (hvisit : Survey.visit code s k = .ok t) :
    Survey.visit code' s k = .ok t := by
  rcases Survey.visit_eq_ok hvisit with ⟨hunknown, rfl⟩ | ⟨i, height, out, next, hi, hheight, hgo, -⟩
  · refine Survey.visit_of_unknown (hunknown.imp_left fun hnone => ?_)
    rw [Array.getElem?_eq_none_iff] at hnone ⊢
    rwa [h.size_eq]
  · obtain ⟨i', hi', halike⟩ := h.entry hi
    obtain ⟨pops, pushes, heffect, hpops, hout, hnext⟩ := departure_eq_ok.mp hgo
    have hgo' : code'.departure k i' height = .ok (out, next) :=
      departure_eq_ok.mpr ⟨pops, pushes, halike.effect_eq.trans heffect, hpops, hout,
        h.successors_eq_ok halike hnext⟩
    rw [Survey.visit_of_known hi hheight, hgo] at hvisit
    rw [Survey.visit_of_known hi' hheight, hgo']
    exact hvisit

theorem explore_eq_ok (s : Survey) {r : Heights × Nat}
    (hr : Heights.explore code s.heights s.deepest s.work = .ok r) :
    Heights.explore code' s.heights s.deepest s.work = .ok r := by
  induction s using Survey.turn_induction code with
  | step s ih =>
    cases hwork : s.work with
    | nil =>
      rw [hwork, Heights.explore] at hr
      rw [Heights.explore, hr]
    | cons i rest =>
      have hloop := Survey.explore_cons code { s with work := rest } i
      have hloop' := Survey.explore_cons code' { s with work := rest } i
      dsimp only at hloop hloop'
      rw [hwork, hloop] at hr
      obtain ⟨t, ht, hrest⟩ := except_bind_eq_ok.mp hr
      rw [hloop']
      exact except_bind_eq_ok.mpr
        ⟨t, h.visit_eq_ok ht, ih t ⟨i, rest, by rw [hwork], ht⟩ hrest⟩

theorem stackHeights_eq_ok {r : Heights × Nat} (hr : code.stackHeights = .ok r) :
    code'.stackHeights = .ok r := by
  have hstart : Survey.initial code' = Survey.initial code := by
    simp only [Survey.initial, h.size_eq]
  have hsame := h.explore_eq_ok (.initial code) hr
  rwa [← hstart] at hsame

/-- A twin of an accepted sequence is accepted with the same body, and the pool stays as it is. -/
theorem assemble_again (hv : pool.Valid) {least : Int} {method : Method}
    (hassemble : code.assemble least pool = .ok method pool') (later : List Request) :
    code'.assemble least (after later pool') = .ok method (after later pool') := by
  obtain ⟨-, -, placements, heights, length, deepest, hlayout, hheights, hencode, hstack, hlocals⟩ :=
    assemble_eq_ok hassemble
  have hlayout' := layout_again h.entries hv hlayout later
  have hencode' := encode_eq_ok h.entries hencode
  rw [assemble_of_stages h.isOpen h.verifyLabels_eq hlayout' (h.stackHeights_eq_ok hheights)
    hencode' least, h.maxLocals_eq, ← hstack, ← hlocals]

end Twin

/-- A sequence that is like an accepted one is accepted with the same bytes and the same limits. It
may come after any requests to the pool, and it adds nothing to the pool, even if that is full. -/
theorem assembly_repeats (requests : List Request) {least : Int} {method : Method}
    (h : code.Twin code') (hassemble : code.assemble least (after requests {}) = .ok method pool')
    (later : List Request) :
    code'.assemble least (after later pool') = .ok method (after later pool') := by
  have hv : (after requests {}).Valid := (ConstantPool.after_sound requests .empty).1
  exact h.assemble_again hv hassemble later

/-- A loop with a jump back and one out of it, over a far slot and constants of the pool. -/
def textLoop (serial back out : Nat) : List Call :=
  [.newLabel, .newLabel, .place ⟨serial, back⟩, .access (Opcode.access .iload).byte 300,
    .pushInt 100000, .jump (Opcode.branch .lt).byte ⟨serial, out⟩, .pushText "more",
    .emit Opcode.pop.byte, .jump Opcode.goto.byte ⟨serial, back⟩, .place ⟨serial, out⟩,
    .emit Opcode.returnVoid.byte]

def textLoopEntries (serial back out : Nat) : List Instruction :=
  [.mark ⟨serial, back⟩, .access .iload 300, .pushInt 100000, .jump (.when .lt) ⟨serial, out⟩,
    .pushText "more", .simple Opcode.pop.byte, .jump .always ⟨serial, back⟩, .mark ⟨serial, out⟩,
    .simple Opcode.returnVoid.byte]

theorem assembly_repeats_textLoop :
    ∃ method pool', (build 0 (textLoop 0 0 1)).assemble 0 (after [.classRef "Loop"] {}) =
        .ok method pool' ∧
      method.bytecode.length = 16 ∧
      ∀ later, (build 4 (textLoop 4 1 0)).assemble 0 (after later pool') =
        .ok method (after later pool') := by
  have hentries : (build 0 (textLoop 0 0 1)).entries.toList = textLoopEntries 0 0 1 := by cbv
  have hentries' : (build 4 (textLoop 4 1 0)).entries.toList = textLoopEntries 4 1 0 := by cbv
  have hplaces : (build 4 (textLoop 4 1 0)).places = #[some 7, some 0] := by cbv
  have hback : (build 0 (textLoop 0 0 1)).SamePlace (build 4 (textLoop 4 1 0)) ⟨0, 0⟩ ⟨4, 1⟩ :=
    ⟨by cbv, by cbv⟩
  have hout : (build 0 (textLoop 0 0 1)).SamePlace (build 4 (textLoop 4 1 0)) ⟨0, 1⟩ ⟨4, 0⟩ :=
    ⟨by cbv, by cbv⟩
  have htwin : (build 0 (textLoop 0 0 1)).Twin (build 4 (textLoop 4 1 0)) := by
    refine ⟨by cbv, fun label hl => ?_, ?_⟩
    · obtain ⟨-, hlt⟩ := (owns_iff _ _).mp hl
      have hall : ∀ n < 2, (#[some 7, some 0] : Array (Option Nat))[n]?.join.isSome = true := by
        decide
      rw [hplaces] at hlt
      rw [place?, hplaces]
      exact hall label.number hlt
    · rw [hentries, hentries']
      exact .cons (.mark hback) (.cons (.plain rfl) (.cons (.plain rfl) (.cons (.jump _ hout)
        (.cons (.plain rfl) (.cons (.plain rfl) (.cons (.jump _ hback) (.cons (.mark hout)
          (.cons (.plain rfl) .nil))))))))
  have hrun : outcomeIs (fun method _ => method.bytecode.length == 16)
      ((build 0 (textLoop 0 0 1)).assemble 0 (after [.classRef "Loop"] {})) = true := by cbv
  obtain ⟨method, pool', hok, hlength⟩ := of_outcomeIs hrun
  exact ⟨method, pool', hok, beq_iff_eq.mp hlength, assembly_repeats _ htwin hok⟩

end Code

end ClassForge
