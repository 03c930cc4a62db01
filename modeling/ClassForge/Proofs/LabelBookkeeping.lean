import ClassForge.Assembly.Workbench
import ClassForge.Proofs.AssemblyRoundTrip

/-! Labels over runs of calls on several sequences. A label is placed exactly where its mark stands,
and a call that fails changes nothing, but for one case: a label that is placed in its sequence when
that is sealed counts as placed from then on, though it has no mark. -/

namespace ClassForge

namespace Code

/-- The sequence with the label placed at its end, but without a mark. -/
def mislay (code : Code) (label : Label) : Code :=
  { code with places := code.places.setIfInBounds label.number (some code.entries.size) }

/-- What a successful call does to a sequence. -/
inductive Moves (code : Code) : Code → Prop
  | labelled : Moves code code.addLabel
  | grown {i : Instruction} (hopen : code.isSealed = false) (hi : i.isMark = false) :
      Moves code (code.push i)
  | marked {label : Label} (hopen : code.isSealed = false) (howns : code.owns label = true)
      (hfree : code.place? label = none) : Moves code (code.mark label)
  | closed : Moves code code.sealed

/-- The marks of a sequence and the places of its labels fit together, the stray labels apart. -/
structure Tidy (strays : Label → Prop) (code : Code) : Prop where
  marked : code.Marked
  placed : ∀ label k, code.owns label = true → ¬ strays label → code.place? label = some k →
    code.entries[k]? = some (.mark label)
  stray : ∀ label, label.owner = code.serial → strays label →
    code.owns label = true ∧ code.isSealed = true ∧ code.place? label = some code.entries.size

variable {code code' : Code} {strays : Label → Prop} {label : Label} {i : Instruction}

theorem Tidy.empty (serial : Nat) : Tidy (fun _ => False) { serial } := by
  refine ⟨fun k label hk => ?_, fun label k howns => ?_, fun label _ h => h.elim⟩
  · simp at hk
  · simp [owns] at howns

theorem Tidy.not_stray (h : code.Tidy strays) (hopen : code.isSealed = false) :
    ∀ label, label.owner = code.serial → ¬ strays label := by
  intro label howner hstray
  have hsealed := (h.stray label howner hstray).2.1
  rw [hopen] at hsealed
  cases hsealed

theorem Tidy.isPlaced (h : code.Tidy strays) (hopen : code.isSealed = false) : code.Placed := by
  intro label k howns
  have howner := ((owns_iff code label).mp howns).1
  exact h.placed label k howns (h.not_stray hopen label howner)

theorem Tidy.of_not_stray (hmarked : code.Marked) (hplaced : code.Placed)
    (hstray : ∀ label, label.owner = code.serial → ¬ strays label) : code.Tidy strays :=
  ⟨hmarked, fun label k howns _ hk => hplaced label k howns hk,
    fun label howner h => absurd h (hstray label howner)⟩

theorem Tidy.moves (h : code.Tidy strays) (hmoves : code.Moves code') : code'.Tidy strays := by
  cases hmoves with
  | labelled =>
    refine ⟨h.marked.addLabel, fun label k howns hstray hk => ?_, fun label howner hstray => ?_⟩
    · rw [place?_addLabel] at hk
      exact h.placed label k (owns_of_addLabel howns hk) hstray hk
    · obtain ⟨howns, hsealed, hplace⟩ := h.stray label howner hstray
      rw [place?_addLabel]
      exact ⟨owns_addLabel howns, hsealed, hplace⟩
  | @grown i hopen hi =>
    exact .of_not_stray (h.marked.push hi) ((h.isPlaced hopen).push i) (h.not_stray hopen)
  | marked hopen howns hfree =>
    exact .of_not_stray (h.marked.mark howns hfree) ((h.isPlaced hopen).mark howns)
      (h.not_stray hopen)
  | closed =>
    refine ⟨h.marked, h.placed, fun label howner hstray => ?_⟩
    obtain ⟨howns, -, hplace⟩ := h.stray label howner hstray
    exact ⟨howns, rfl, hplace⟩

theorem place?_mislay (howns : code.owns label = true) (other : Label) :
    (code.mislay label).place? other =
      if other.number = label.number then some code.entries.size else code.place? other :=
  place?_mark code label other ((owns_iff code label).mp howns).2

theorem eq_of_owns {other : Label} (howns : code.owns label = true)
    (hother : code.owns other = true) (h : other.number = label.number) : other = label := by
  cases label
  cases other
  simp_all [owns]

theorem Tidy.mislay (h : code.Tidy strays) (hsealed : code.isSealed = true)
    (howns : code.owns label = true) (hfree : code.place? label = none) :
    (code.mislay label).Tidy fun other => strays other ∨ other = label := by
  have howns' (other : Label) : (code.mislay label).owns other = code.owns other := by
    simp [owns, Code.mislay]
  have hother {other : Label} (hl : code.owns other = true) (hne : other ≠ label) :
      (code.mislay label).place? other = code.place? other := by
    rw [place?_mislay howns, if_neg fun heq => hne (eq_of_owns howns hl heq)]
  refine ⟨fun k other hk => ?_, fun other k hl hstray hk => ?_, fun other howner hstray => ?_⟩
  · obtain ⟨hl, hplace⟩ := h.marked k other hk
    -- The label has no mark yet, since it is not placed.
    have hne : other ≠ label := by
      rintro rfl
      rw [hfree] at hplace
      cases hplace
    rw [howns', hother hl hne]
    exact ⟨hl, hplace⟩
  · rw [howns'] at hl
    obtain ⟨hstray, hne⟩ := not_or.mp hstray
    rw [hother hl hne] at hk
    exact h.placed other k hl hstray hk
  · by_cases heq : other = label
    · subst heq
      rw [howns', place?_mislay howns, if_pos rfl]
      exact ⟨howns, hsealed, rfl⟩
    · obtain ⟨hl, -, hplace⟩ := h.stray other howner (hstray.resolve_right heq)
      rw [howns', hother hl heq]
      exact ⟨hl, hsealed, hplace⟩

theorem Tidy.congr {strays' : Label → Prop} (h : code.Tidy strays)
    (heq : ∀ label, label.owner = code.serial → (strays' label ↔ strays label)) :
    code.Tidy strays' := by
  refine ⟨h.marked, fun label k howns hstray => ?_, fun label howner hstray => ?_⟩
  · have howner := ((owns_iff code label).mp howns).1
    exact h.placed label k howns fun hs => hstray ((heq label howner).mpr hs)
  · exact h.stray label howner ((heq label howner).mp hstray)

theorem Tidy.getElem?_eq_iff (h : code.Tidy strays) (howns : code.owns label = true)
    (hstray : ¬ strays label) (k : Nat) :
    code.entries[k]? = some (.mark label) ↔ code.place? label = some k :=
  ⟨fun hk => (h.marked k label hk).2, h.placed label k howns hstray⟩

theorem Tidy.isSome_place?_iff (h : code.Tidy strays) (howns : code.owns label = true)
    (hstray : ¬ strays label) : (code.place? label).isSome = true ↔
      ∃! k : Nat, code.entries[k]? = some (.mark label) := by
  simp only [h.getElem?_eq_iff howns hstray, Option.isSome_iff_exists]
  constructor
  · rintro ⟨k, hk⟩
    refine ⟨k, hk, fun j hj => ?_⟩
    rw [hk] at hj
    exact (Option.some.inj hj).symm
  · rintro ⟨k, hk, -⟩
    exact ⟨k, hk⟩

theorem Tidy.mark_not_mem (h : code.Tidy strays) (howner : label.owner = code.serial)
    (hstray : strays label) : .mark label ∉ code.entries := by
  intro hmem
  obtain ⟨k, hk⟩ := Array.mem_iff_getElem?.mp hmem
  have hplace := (h.marked k label hk).2
  rw [(h.stray label howner hstray).2.2] at hplace
  cases hplace
  simp at hk

theorem Moves.serial (h : code.Moves code') : code'.serial = code.serial := by
  cases h <;> rfl

/-- A sealed sequence may get labels, and no more. -/
theorem Moves.of_sealed (h : code.Moves code') (hsealed : code.isSealed = true) :
    code'.entries = code.entries ∧ code'.isSealed = true := by
  cases h with
  | labelled => exact ⟨rfl, hsealed⟩
  | grown hopen hi => simp [hsealed] at hopen
  | marked hopen howns hfree => simp [hsealed] at hopen
  | closed => exact ⟨rfl, rfl⟩

/-- What a call can come to on a sequence. -/
inductive Outcome (code : Code) : Call → EStateM.Result CodeError Code Unit → Prop
  | refused {call : Call} (e : CodeError) : Outcome code call (.error e code)
  | moved {call : Call} {code' : Code} (h : code.Moves code') : Outcome code call (.ok () code')
  | mislaid {label : Label} (hsealed : code.isSealed = true) (howns : code.owns label = true)
      (hfree : code.place? label = none) :
      Outcome code (.place label) (.error (.misuse .sealed) (code.mislay label))

theorem outcome_append {call : Call} (hi : i.isMark = false) :
    Outcome code call (append i code) := by
  unfold append
  split
  · exact .refused _
  · next hopen => exact .moved (.grown (by simpa using hopen) hi)

theorem outcome_place (label : Label) (code : Code) :
    Outcome code (.place label) (Code.place label code) := by
  unfold Code.place
  split
  · exact .refused _
  next howns =>
  split
  · exact .refused _
  next hfree =>
  have howns : code.owns label = true := by simpa using howns
  have hfree : code.place? label = none := by simpa using hfree
  by_cases hsealed : code.isSealed = true
  · rw [append, if_pos hsealed]
    exact .mislaid hsealed howns hfree
  · rw [append, if_neg hsealed]
    exact .moved (.marked (by simpa using hsealed) howns hfree)

theorem Call.outcome (call : Call) (code : Code) : Outcome code call (call.run code) := by
  cases call with
  | newLabel => exact .moved .labelled
  | place label => exact outcome_place label code
  | access op slot =>
    cases hop : LocalOp.ofByte? op with
    | none =>
      simp only [run, Code.access, hop]
      exact .refused _
    | some op =>
      simp only [run, Code.access, hop]
      exact outcome_append rfl
  | jump op target =>
    cases hop : JumpOp.ofByte? op with
    | none =>
      simp only [run, Code.jump, hop]
      exact .refused _
    | some op =>
      simp only [run, Code.jump, hop]
      exact outcome_append rfl
  | _ => exact outcome_append rfl

end Code

namespace Workbench

/-- A call on the sequences of a bench. Between the calls, the constant pool may be put to other
uses. -/
inductive Call where
  | newCode
  | work (seq : Nat) (call : Code.Call)
  | assemble (seq : Nat) (leastLocals : Int)
  | usePool (pool : ConstantPool)

def Call.perform : Call → Worked Unit
  | newCode => do let _ ← Workbench.newCode
  | work seq (.place label) => Workbench.place seq label
  | work seq call => onCode seq call.run
  | assemble seq leastLocals => do let _ ← Workbench.assemble seq leastLocals
  | usePool pool => modify ({ · with pool })

def run (bench : Workbench) (calls : List Call) : Workbench :=
  calls.foldl (fun bench call => stateAfter (call.perform bench)) bench

/-- The bench with another sequence in the place of one of its own. -/
def set (bench : Workbench) (seq : Nat) (code : Code) : Workbench :=
  { bench with codes := bench.codes.setIfInBounds seq code }

/-- The call places a label in its sequence, which is sealed. -/
def Mislays (bench : Workbench) (call : Call) (label : Label) : Prop :=
  ∃ seq, call = .work seq (.place label) ∧ (bench.code seq).isSealed = true ∧
    (bench.code seq).owns label = true ∧ (bench.code seq).place? label = none

variable {bench bench' : Workbench} {call : Call} {seq k : Nat} {code : Code} {label : Label}

theorem code_of_size_le (h : bench.codes.size ≤ seq) : bench.code seq = { serial := seq } := by
  simp [Workbench.code, Array.getElem?_eq_none h]

theorem set_of_size_le (h : bench.codes.size ≤ seq) : bench.set seq code = bench := by
  simp [set, Array.setIfInBounds, Nat.not_lt.mpr h]

theorem code_set (h : seq < bench.codes.size) :
    (bench.set seq code).code k = if k = seq then code else bench.code k := by
  simp only [Workbench.code, set, Array.getElem?_setIfInBounds]
  by_cases hk : seq = k
  · subst hk
    simp [h]
  · simp [hk, Ne.symm hk]

theorem lt_size_of_owns (h : (bench.code seq).owns label = true) : seq < bench.codes.size := by
  by_contra hle
  rw [code_of_size_le (Nat.not_lt.mp hle)] at h
  simp [Code.owns] at h

theorem onCode_eq_ok {step : Code.Coded Unit} {code' : Code}
    (h : step (bench.code seq) = .ok () code') :
    onCode seq step bench = .ok () (bench.set seq code') := by
  simp only [Workbench.code] at h
  simp [onCode, h, set]

theorem onCode_eq_error {step : Code.Coded Unit} {code' : Code} {e : CodeError}
    (h : step (bench.code seq) = .error e code') :
    onCode seq step bench = .error (.code e) (bench.set seq code') := by
  simp only [Workbench.code] at h
  simp [onCode, h, set]

/-- What a call can come to that mislays no label. -/
inductive Outcome (bench : Workbench) : EStateM.Result WorkbenchError Workbench Unit → Prop
  | refused (e : WorkbenchError) (pool : ConstantPool) :
      Outcome bench (.error e { bench with pool })
  | kept {bench' : Workbench} (h : bench'.code = bench.code) : Outcome bench (.ok () bench')
  | moved {seq : Nat} {code : Code} (pool : ConstantPool) (hseq : seq < bench.codes.size)
      (h : (bench.code seq).Moves code) : Outcome bench (.ok () { bench.set seq code with pool })

theorem set_code (bench : Workbench) (seq : Nat) : bench.set seq (bench.code seq) = bench := by
  by_cases hseq : seq < bench.codes.size
  · simp [set, Workbench.code, hseq, Array.setIfInBounds]
  · exact set_of_size_le (Nat.not_lt.mp hseq)

theorem outcome_onCode {c : Code.Call} (h : ∀ label, ¬ bench.Mislays (.work seq c) label) :
    Outcome bench (onCode seq c.run bench) := by
  generalize hr : c.run (bench.code seq) = r
  have houtcome := hr ▸ c.outcome (bench.code seq)
  cases houtcome with
  | refused e =>
    rw [onCode_eq_error hr, set_code]
    exact .refused _ bench.pool
  | moved hmoves =>
    rw [onCode_eq_ok hr]
    by_cases hseq : seq < bench.codes.size
    · exact .moved bench.pool hseq hmoves
    · rw [set_of_size_le (Nat.not_lt.mp hseq)]
      exact .kept rfl
  | mislaid hsealed howns hfree => exact absurd ⟨seq, rfl, hsealed, howns, hfree⟩ (h _)

theorem place_eq (bench : Workbench) (seq : Nat) (label : Label) : Workbench.place seq label bench =
    if bench.isPlaced label then .error (.code (.placedTwice label)) bench
    else onCode seq (Code.place label) bench := by
  have hget : (get : Worked Workbench) bench = .ok bench bench := rfl
  rw [Workbench.place, bind_eq_of_ok hget]
  split
  · rfl
  · rfl

theorem code_newCode (bench : Workbench) :
    ({ bench with codes := bench.codes.push { serial := bench.codes.size } } : Workbench).code =
      bench.code := by
  funext k
  simp only [Workbench.code, Array.getElem?_push]
  by_cases hk : k = bench.codes.size
  · simp [hk]
  · simp [hk]

section Assembly

variable {leastLocals : Int} {method : Method} {pool : ConstantPool}

theorem lt_size_of_assemble
    (h : (bench.code seq).assemble leastLocals bench.pool = .ok method pool) :
    seq < bench.codes.size := by
  by_contra hle
  -- There is no sequence with this number, and an empty one has no layout.
  obtain ⟨-, -, _, _, _, _, hlayout, -⟩ := Code.assemble_eq_ok h
  rw [code_of_size_le (Nat.not_lt.mp hle)] at hlayout
  cases hlayout

theorem codes_modify (h : seq < bench.codes.size) : bench.codes.modify seq Code.sealed =
    (bench.set seq (bench.code seq).sealed).codes := by
  apply Array.ext_getElem?
  intro k
  rw [Array.getElem?_modify, set, Array.getElem?_setIfInBounds]
  by_cases hk : seq = k
  · subst hk
    simp [Workbench.code, h]
  · simp [hk]

theorem assemble_cases (bench : Workbench) (seq : Nat) (leastLocals : Int) :
    (∃ e pool, Workbench.assemble seq leastLocals bench =
      .error (.assembly e) { bench with pool }) ∨
    seq < bench.codes.size ∧ ∃ method pool, Workbench.assemble seq leastLocals bench =
      .ok method { bench.set seq (bench.code seq).sealed with pool } := by
  cases h : (bench.code seq).assemble leastLocals bench.pool with
  | error e pool =>
    refine .inl ⟨e, pool, ?_⟩
    simp only [Workbench.assemble, h]
  | ok method pool =>
    have hseq := lt_size_of_assemble h
    refine .inr ⟨hseq, method, pool, ?_⟩
    simp only [Workbench.assemble, h, codes_modify hseq]

end Assembly

theorem Call.outcome (h : ∀ label, ¬ bench.Mislays call label) :
    Outcome bench (call.perform bench) := by
  cases call with
  | newCode => exact .kept (code_newCode bench)
  | work seq c =>
    cases c with
    | place label =>
      simp only [perform, place_eq]
      split
      · exact .refused _ bench.pool
      · exact outcome_onCode h
    | _ => exact outcome_onCode h
  | assemble seq leastLocals =>
    simp only [perform]
    obtain ⟨e, pool, h⟩ | ⟨hseq, method, pool, h⟩ := assemble_cases bench seq leastLocals
    · rw [bind_eq_of_error h]
      exact .refused _ pool
    · rw [bind_eq_of_ok h]
      exact .moved pool hseq .closed
  | usePool pool => exact .kept rfl

/-- Every sequence of the bench is tidy, the stray labels apart, and knows its number. -/
def Tidy (strays : Label → Prop) (bench : Workbench) : Prop :=
  ∀ k, (bench.code k).serial = k ∧ (bench.code k).Tidy strays

variable {strays : Label → Prop}

theorem Mislays.owner (h : bench.Mislays call label) (hserial : ∀ k, (bench.code k).serial = k) :
    call = .work label.owner (.place label) ∧ (bench.code label.owner).isSealed = true ∧
      (bench.code label.owner).owns label = true ∧
      (bench.code label.owner).place? label = none := by
  obtain ⟨seq, hcall, hsealed, howns, hfree⟩ := h
  have howner : label.owner = seq := by
    rw [((Code.owns_iff _ label).mp howns).1, hserial]
  rw [howner]
  exact ⟨hcall, hsealed, howns, hfree⟩

theorem Call.perform_of_mislays (h : bench.Mislays call label)
    (hserial : ∀ k, (bench.code k).serial = k) :
    call.perform bench = .error (.code (.misuse .sealed))
      (bench.set label.owner ((bench.code label.owner).mislay label)) := by
  obtain ⟨rfl, hsealed, howns, hfree⟩ := h.owner hserial
  have hunplaced : ¬ bench.isPlaced label = true := by simp [isPlaced, hfree]
  have hplace : Code.place label (bench.code label.owner) =
      .error (.misuse .sealed) ((bench.code label.owner).mislay label) := by
    simp [Code.place, howns, hfree, Code.append, hsealed, Code.mislay]
  rw [perform, place_eq, if_neg hunplaced, onCode_eq_error hplace]

/-- What a call can do to the sequence with number `k`. -/
inductive Turn (bench : Workbench) (call : Call) (k : Nat) : Code → Prop
  | kept (h : ∀ label, label.owner = k → ¬ bench.Mislays call label) :
      Turn bench call k (bench.code k)
  | moved {code : Code} (h : ∀ label, label.owner = k → ¬ bench.Mislays call label)
      (hmoves : (bench.code k).Moves code) : Turn bench call k code
  | mislaid {label : Label} (h : bench.Mislays call label) (howner : label.owner = k) :
      Turn bench call k ((bench.code k).mislay label)

theorem Mislays.eq {other : Label} (h : bench.Mislays call label)
    (hother : bench.Mislays call other) : other = label := by
  obtain ⟨seq, rfl, -⟩ := h
  obtain ⟨seq', heq, -⟩ := hother
  cases heq
  rfl

theorem Call.turn (hserial : ∀ k, (bench.code k).serial = k) (call : Call) (k : Nat) :
    bench.Turn call k ((stateAfter (call.perform bench)).code k) := by
  by_cases hmislays : ∃ label, bench.Mislays call label
  -- A call that mislays a label changes the sequence of the label and no other.
  · obtain ⟨label, hlabel⟩ := hmislays
    have howns := (hlabel.owner hserial).2.2.1
    rw [perform_of_mislays hlabel hserial, stateAfter, code_set (lt_size_of_owns howns)]
    by_cases hk : k = label.owner
    · subst hk
      rw [if_pos rfl]
      exact .mislaid hlabel rfl
    · rw [if_neg hk]
      refine .kept fun other howner hother => hk ?_
      rw [← howner, hlabel.eq hother]
  · have hnone := not_exists.mp hmislays
    have hkept := fun label (_ : label.owner = k) => hnone label
    generalize hr : call.perform bench = r
    have houtcome := hr ▸ Call.outcome hnone
    cases houtcome with
    | refused e pool => exact .kept hkept
    | kept hcode =>
      rw [stateAfter, hcode]
      exact .kept hkept
    | @moved seq code pool hseq hmoves =>
      have hcode : (stateAfter (.ok () { bench.set seq code with pool } :
          EStateM.Result WorkbenchError Workbench Unit)).code k =
            if k = seq then code else bench.code k := code_set hseq
      rw [hcode]
      by_cases hk : k = seq
      · subst hk
        rw [if_pos rfl]
        exact .moved hkept hmoves
      · rw [if_neg hk]
        exact .kept hkept

theorem Tidy.step (h : bench.Tidy strays) (call : Call) : (stateAfter (call.perform bench)).Tidy
    fun label => strays label ∨ bench.Mislays call label := by
  intro k
  obtain ⟨hserial, htidy⟩ := h k
  have hturn := Call.turn (fun k => (h k).1) call k
  generalize (stateAfter (call.perform bench)).code k = code' at hturn ⊢
  cases hturn with
  | kept hnone =>
    refine ⟨hserial, htidy.congr fun label howner => or_iff_left (hnone label ?_)⟩
    rw [howner, hserial]
  | moved hnone hmoves =>
    refine ⟨hmoves.serial.trans hserial, (htidy.moves hmoves).congr fun label howner => ?_⟩
    exact or_iff_left (hnone label (by rw [howner, hmoves.serial, hserial]))
  | @mislaid label hlabel howner =>
    subst howner
    obtain ⟨-, hsealed, howns, hfree⟩ := hlabel.owner fun k => (h k).1
    refine ⟨hserial, (htidy.mislay hsealed howns hfree).congr fun other _ => or_congr_right ?_⟩
    exact ⟨hlabel.eq, fun heq => heq ▸ hlabel⟩

/-- In the run, the label is placed in its sequence at a time when that is sealed. -/
def Mislaid (bench : Workbench) (calls : List Call) (label : Label) : Prop :=
  ∃ earlier call later, calls = earlier ++ call :: later ∧ (bench.run earlier).Mislays call label

theorem mislaid_cons (bench : Workbench) (calls : List Call) : bench.Mislaid (call :: calls) label ↔
    bench.Mislays call label ∨ (stateAfter (call.perform bench)).Mislaid calls label := by
  constructor
  · rintro ⟨earlier, other, later, heq, h⟩
    cases earlier with
    | nil =>
      cases heq
      exact .inl h
    | cons first earlier =>
      cases heq
      exact .inr ⟨earlier, other, later, rfl, h⟩
  · rintro (h | ⟨earlier, other, later, rfl, h⟩)
    · exact ⟨[], call, calls, rfl, h⟩
    · exact ⟨call :: earlier, other, later, rfl, h⟩

theorem Tidy.run (h : bench.Tidy strays) (calls : List Call) :
    (bench.run calls).Tidy fun label => strays label ∨ bench.Mislaid calls label := by
  induction calls generalizing bench strays with
  | nil =>
    refine fun k => ⟨(h k).1, (h k).2.congr fun label _ => ?_⟩
    simp [Mislaid]
  | cons call calls ih =>
    have hrest := ih (h.step call)
    refine fun k => ⟨(hrest k).1, (hrest k).2.congr fun label _ => ?_⟩
    rw [mislaid_cons, or_assoc]

theorem tidy_run (calls : List Call) : (run {} calls).Tidy (Mislaid {} calls) := by
  have hempty : Tidy (fun _ => False) {} := by
    intro k
    cases k with
    | zero => exact ⟨rfl, Code.Tidy.empty 0⟩
    | succ k => exact ⟨rfl, Code.Tidy.empty (k + 1)⟩
  refine fun k => ⟨(hempty.run calls k).1, (hempty.run calls k).2.congr fun label _ => ?_⟩
  rw [false_or]

theorem sealed_step (h : bench.Tidy strays) (hsealed : (bench.code k).isSealed = true)
    (call : Call) : ((stateAfter (call.perform bench)).code k).entries = (bench.code k).entries ∧
      ((stateAfter (call.perform bench)).code k).isSealed = true := by
  have hturn := Call.turn (fun k => (h k).1) call k
  generalize (stateAfter (call.perform bench)).code k = code' at hturn ⊢
  cases hturn with
  | kept hnone => exact ⟨rfl, hsealed⟩
  | moved hnone hmoves => exact hmoves.of_sealed hsealed
  | mislaid hlabel howner => exact ⟨rfl, hsealed⟩

theorem sealed_run (h : bench.Tidy strays) (hsealed : (bench.code k).isSealed = true)
    (calls : List Call) : ((bench.run calls).code k).entries = (bench.code k).entries ∧
      ((bench.run calls).code k).isSealed = true := by
  induction calls generalizing bench strays with
  | nil => exact ⟨rfl, hsealed⟩
  | cons call calls ih =>
    obtain ⟨hentries, hsealed'⟩ := sealed_step h hsealed call
    obtain ⟨hrest, hrest'⟩ := ih (h.step call) hsealed'
    exact ⟨hrest.trans hentries, hrest'⟩

theorem Call.codes_of_error {e : WorkbenchError} (h : ∀ label, ¬ bench.Mislays call label)
    (herror : call.perform bench = .error e bench') : bench'.codes = bench.codes := by
  have houtcome := herror ▸ Call.outcome h
  cases houtcome with
  | refused e pool => rfl

theorem assemble_error_extensible {leastLocals : Int} {e : WorkbenchError}
    (h : Workbench.assemble seq leastLocals bench = .error e bench') :
    bench'.codes = bench.codes ∧ ((bench.code seq).isSealed = false → ∀ i,
      onCode seq (Code.append i) bench' = .ok () (bench'.set seq ((bench.code seq).push i))) := by
  obtain ⟨e', pool, h'⟩ | ⟨-, method, pool, h'⟩ := assemble_cases bench seq leastLocals
  · rw [h'] at h
    cases h
    refine ⟨rfl, fun hopen i => onCode_eq_ok ?_⟩
    exact if_neg (by simpa [Workbench.code] using hopen)
  · rw [h'] at h
    cases h

theorem assemble_ok_final {leastLocals : Int} {method : Method} (htidy : bench.Tidy strays)
    (h : Workbench.assemble seq leastLocals bench = .ok method bench') (later : List Call) :
    ((bench'.run later).code seq).entries = (bench.code seq).entries ∧
      ((bench'.run later).code seq).isSealed = true := by
  have hperform : (Call.assemble seq leastLocals).perform bench = .ok () bench' :=
    bind_eq_of_ok h _
  have htidy' := htidy.step (.assemble seq leastLocals)
  rw [hperform] at htidy'
  have hcode : bench'.code seq = (bench.code seq).sealed := by
    obtain ⟨e', pool, h'⟩ | ⟨hseq, method', pool, h'⟩ := assemble_cases bench seq leastLocals
    · rw [h'] at h
      cases h
    · rw [h'] at h
      cases h
      exact (code_set hseq).trans (if_pos rfl)
  have hsealed : (bench'.code seq).isSealed = true := by
    rw [hcode]
    rfl
  obtain ⟨hentries, hrest⟩ := sealed_run htidy' hsealed later
  rw [stateAfter, hcode] at hentries
  exact ⟨hentries, hrest⟩

/-- Along every run, a label is placed exactly where its sequence has its only mark, and a call that
fails changes no sequence. The one exception is a label that is placed in its sequence when that is
sealed already. The call fails, and the label counts as placed at the end of the sequence. -/
theorem labels_placed_at_marks (calls : List Call) :
    let bench := run {} calls
    (∀ label, (bench.code label.owner).owns label = true → ¬ Mislaid {} calls label →
      (bench.isPlaced label = true ↔
        ∃! k : Nat, (bench.code label.owner).entries[k]? = some (.mark label)) ∧
      ∀ k : Nat, (bench.code label.owner).entries[k]? = some (.mark label) ↔
        (bench.code label.owner).place? label = some k) ∧
    (∀ label, Mislaid {} calls label →
      (bench.code label.owner).owns label = true ∧
      (bench.code label.owner).isSealed = true ∧
      (bench.code label.owner).place? label = some (bench.code label.owner).entries.size ∧
      .mark label ∉ (bench.code label.owner).entries) ∧
    (∀ seq label, .mark label ∈ (bench.code seq).entries →
      label.owner = seq ∧ (bench.code seq).owns label = true) ∧
    (∀ call label, bench.Mislays call label →
      call.perform bench = .error (.code (.misuse .sealed))
        (bench.set label.owner ((bench.code label.owner).mislay label))) ∧
    (∀ call, (∀ label, ¬ bench.Mislays call label) →
      ∀ e bench', call.perform bench = .error e bench' → bench'.codes = bench.codes) ∧
    (∀ seq leastLocals e bench', Workbench.assemble seq leastLocals bench = .error e bench' →
      bench'.codes = bench.codes ∧
      ((bench.code seq).isSealed = false → ∀ i,
        onCode seq (Code.append i) bench' = .ok () (bench'.set seq ((bench.code seq).push i)))) ∧
    (∀ seq leastLocals method bench',
      Workbench.assemble seq leastLocals bench = .ok method bench' → ∀ later,
        ((bench'.run later).code seq).entries = (bench.code seq).entries ∧
        ((bench'.run later).code seq).isSealed = true) := by
  intro bench
  have htidy := tidy_run calls
  have hserial := fun k => (htidy k).1
  refine ⟨fun label howns hstray => ?_, fun label hstray => ?_, fun seq label hmem => ?_,
    fun call label => (Call.perform_of_mislays · hserial), fun call hnone e bench' => ?_,
    fun seq leastLocals e bench' herror => ?_, fun seq leastLocals method bench' hok later => ?_⟩
  · have hiff := (htidy label.owner).2.getElem?_eq_iff howns hstray
    exact ⟨(htidy label.owner).2.isSome_place?_iff howns hstray, hiff⟩
  · obtain ⟨howns, hsealed, hplace⟩ :=
      (htidy label.owner).2.stray label (hserial _).symm hstray
    exact ⟨howns, hsealed, hplace, (htidy label.owner).2.mark_not_mem (hserial _).symm hstray⟩
  · obtain ⟨k, hk⟩ := Array.mem_iff_getElem?.mp hmem
    have howns := ((htidy seq).2.marked k label hk).1
    exact ⟨((Code.owns_iff _ label).mp howns).1.trans (hserial seq), howns⟩
  · exact Call.codes_of_error hnone
  · exact assemble_error_extensible herror
  · exact assemble_ok_final htidy hok later

/-- A method is assembled, and a label made then is placed. The call fails, yet the label counts as
placed, and the sequence has no mark. -/
theorem label_placed_by_failing_call :
    let bench := run {} [.work 0 (.emit 0xb1), .assemble 0 0, .work 0 .newLabel]
    let label : Label := ⟨0, 0⟩
    bench.isPlaced label = false ∧ ∃ e bench',
      (Call.work 0 (.place label)).perform bench = .error e bench' ∧
      bench'.isPlaced label = true ∧ (bench'.code 0).entries = #[.simple 0xb1] := by
  intro bench label
  have hsealed : (bench.code 0).isSealed = true := by cbv
  have hmislays : bench.Mislays (.work 0 (.place label)) label := ⟨0, rfl, hsealed, by cbv, by cbv⟩
  have hserial := fun k =>
    (tidy_run [.work 0 (.emit 0xb1), .assemble 0 0, .work 0 .newLabel] k).1
  exact ⟨by cbv, _, _, Call.perform_of_mislays hmislays hserial, by cbv, by cbv⟩

end Workbench

end ClassForge
