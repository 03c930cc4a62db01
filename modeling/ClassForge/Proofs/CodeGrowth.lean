import Mathlib
import ClassForge.Sequencing
import ClassForge.Compile.Emission

/-! How a sequence grows while code is emitted. Labels are made, used by jumps and placed later; a
piece of code that is complete has placed every label it made, and no other. -/

namespace ClassForge

namespace Instruction

/-- Whether the instruction has to do with no label. -/
def isPlain : Instruction → Bool
  | mark _ | jump _ _ => false
  | _ => true

def isJump : Instruction → Bool
  | jump _ _ => true
  | _ => false

end Instruction

namespace Code

def push (code : Code) (i : Instruction) : Code :=
  { code with entries := code.entries.push i }

/-- The label that is made next. -/
def nextLabel (code : Code) : Label :=
  ⟨code.serial, code.places.size⟩

def addLabel (code : Code) : Code :=
  { code with places := code.places.push none }

/-- The sequence with a mark for the label at its end. -/
def mark (code : Code) (label : Label) : Code :=
  { code.push (.mark label) with
    places := code.places.setIfInBounds label.number (some code.entries.size) }

/-- How many jumps the sequence has. -/
def jumps (code : Code) : Nat :=
  code.entries.countP Instruction.isJump

section Fields

variable (code : Code) (i : Instruction) (label other : Label)

@[simp] theorem entries_push : (code.push i).entries = code.entries.push i := rfl

@[simp] theorem places_push : (code.push i).places = code.places := rfl

@[simp] theorem serial_push : (code.push i).serial = code.serial := rfl

@[simp] theorem isSealed_push : (code.push i).isSealed = code.isSealed := rfl

@[simp] theorem jumps_push : (code.push i).jumps = code.jumps + if i.isJump then 1 else 0 := by
  simp [jumps, push, Array.countP_push]

@[simp] theorem entries_addLabel : code.addLabel.entries = code.entries := rfl

@[simp] theorem size_places_addLabel : code.addLabel.places.size = code.places.size + 1 := by
  simp [addLabel]

@[simp] theorem jumps_addLabel : code.addLabel.jumps = code.jumps := rfl

@[simp] theorem serial_addLabel : code.addLabel.serial = code.serial := rfl

@[simp] theorem isSealed_addLabel : code.addLabel.isSealed = code.isSealed := rfl

@[simp] theorem entries_mark : (code.mark label).entries = code.entries.push (.mark label) := rfl

@[simp] theorem jumps_mark : (code.mark label).jumps = code.jumps := by
  simp [jumps, Instruction.isJump]

@[simp] theorem size_places_mark : (code.mark label).places.size = code.places.size := by
  simp [mark]

@[simp] theorem serial_mark : (code.mark label).serial = code.serial := rfl

@[simp] theorem isSealed_mark : (code.mark label).isSealed = code.isSealed := rfl

@[simp] theorem nextLabel_owner : code.nextLabel.owner = code.serial := rfl

@[simp] theorem nextLabel_number : code.nextLabel.number = code.places.size := rfl

@[simp] theorem place?_push : (code.push i).place? label = code.place? label := rfl

@[simp] theorem place?_addLabel : code.addLabel.place? label = code.place? label := by
  simp only [place?, addLabel, Array.getElem?_push]
  split
  · next heq => simp [heq]
  · rfl

theorem place?_mark (hlt : label.number < code.places.size) : (code.mark label).place? other =
    if other.number = label.number then some code.entries.size else code.place? other := by
  simp only [place?, mark, push, Array.getElem?_setIfInBounds]
  by_cases heq : label.number = other.number
  · simp [← heq, hlt]
  · simp [heq, Ne.symm heq]

theorem place?_eq_none (hlt : code.places.size ≤ label.number) : code.place? label = none := by
  simp [place?, Array.getElem?_eq_none hlt]

theorem owns_iff : code.owns label = true ↔
    label.owner = code.serial ∧ label.number < code.places.size := by
  simp [owns]

end Fields

/-- Every mark stands where its label is placed, and every jump goes to a label of the sequence. -/
structure Labelled (code : Code) : Prop where
  marks : ∀ {k : Nat} {label : Label}, code.entries[k]? = some (.mark label) →
    code.owns label = true ∧ code.place? label = some k
  placed : ∀ {label : Label} {k : Nat}, code.owns label = true → code.place? label = some k →
    code.entries[k]? = some (.mark label)
  jumps : ∀ {k : Nat} {op : JumpOp} {label : Label}, code.entries[k]? = some (.jump op label) →
    code.owns label = true

variable {code code' full : Code} {i : Instruction} {label : Label}

theorem getElem?_push_of_some {k : Nat} {j : Instruction} (h : code.entries[k]? = some j) :
    (code.entries.push i)[k]? = some j := by
  rw [Array.getElem?_push, if_neg, h]
  have := (Array.getElem?_eq_some_iff.mp h).1
  omega

/-- Every label of the sequence that is placed has its mark there. -/
def Placed (code : Code) : Prop :=
  ∀ (label : Label) (k : Nat), code.owns label = true → code.place? label = some k →
    code.entries[k]? = some (.mark label)

theorem Placed.push (h : code.Placed) (i : Instruction) : (code.push i).Placed :=
  fun label k howns hk => getElem?_push_of_some (h label k howns hk)

/-- A label that is placed is not the one just made. -/
theorem owns_of_addLabel {k : Nat} (howns : code.addLabel.owns label = true)
    (hk : code.place? label = some k) : code.owns label = true := by
  rw [owns_iff] at howns ⊢
  refine ⟨howns.1, ?_⟩
  by_contra hle
  rw [place?_eq_none code label (by omega)] at hk
  cases hk

theorem Placed.addLabel (h : code.Placed) : code.addLabel.Placed := by
  intro label k howns hk
  rw [place?_addLabel] at hk
  exact h label k (owns_of_addLabel howns hk) hk

theorem Placed.mark (h : code.Placed) (howns : code.owns label = true) :
    (code.mark label).Placed := by
  obtain ⟨howner, hlt⟩ := (owns_iff code label).mp howns
  intro l k hl hk
  have hl : code.owns l = true := by simpa [owns] using hl
  rw [place?_mark code label l hlt] at hk
  by_cases heq : l.number = label.number
  · have hsame : l = label := by
      cases l
      cases label
      simp_all [owns]
    rw [if_pos heq] at hk
    cases hk
    simp [hsame]
  · rw [if_neg heq] at hk
    exact getElem?_push_of_some (h l k hl hk)

/-- Every mark is of a label of the sequence and stands where the label is placed. -/
def Marked (code : Code) : Prop :=
  ∀ (k : Nat) (label : Label), code.entries[k]? = some (.mark label) →
    code.owns label = true ∧ code.place? label = some k

theorem owns_addLabel (h : code.owns label = true) : code.addLabel.owns label = true := by
  simp only [owns_iff, serial_addLabel, size_places_addLabel] at h ⊢
  omega

theorem owns_mark (label other : Label) : (code.mark label).owns other = code.owns other := by
  simp [owns]

theorem Marked.push (h : code.Marked) (hmark : i.isMark = false) : (code.push i).Marked := by
  intro k label hk
  simp only [entries_push, Array.getElem?_push] at hk
  split at hk
  · cases hk
    cases hmark
  · exact h k label hk

theorem Marked.addLabel (h : code.Marked) : code.addLabel.Marked := by
  intro k label hk
  obtain ⟨howns, hplace⟩ := h k label hk
  rw [place?_addLabel]
  exact ⟨owns_addLabel howns, hplace⟩

theorem Marked.mark (h : code.Marked) (howns : code.owns label = true)
    (hfree : code.place? label = none) : (code.mark label).Marked := by
  obtain ⟨howner, hlt⟩ := (owns_iff code label).mp howns
  intro k l hk
  rw [owns_mark, place?_mark code label l hlt]
  simp only [entries_mark, Array.getElem?_push] at hk
  split at hk
  · next heq =>
    cases hk
    simp [howns, heq]
  · obtain ⟨hl, hplace⟩ := h k l hk
    refine ⟨hl, ?_⟩
    rw [if_neg, hplace]
    intro heq
    rw [place?, heq, ← place?, hfree] at hplace
    cases hplace

theorem Labelled.isMarked (h : code.Labelled) : code.Marked :=
  fun _ _ => h.marks

theorem Labelled.isPlaced (h : code.Labelled) : code.Placed :=
  fun _ _ => h.placed

theorem Labelled.empty (serial : Nat) : Labelled { serial } := by
  constructor <;> intros <;> simp_all [owns]

theorem Labelled.push (h : code.Labelled) (hmark : i.isMark = false)
    (hjump : ∀ op label, i = .jump op label → code.owns label = true) :
    (code.push i).Labelled := by
  refine ⟨h.isMarked.push hmark _ _, fun {label k} howns hk => ?_, fun {k op label} hk => ?_⟩
  · exact h.isPlaced.push i label k howns hk
  · simp only [entries_push, Array.getElem?_push] at hk
    split at hk
    · exact hjump op label (Option.some.inj hk)
    · exact h.jumps hk

theorem Labelled.push_plain (h : code.Labelled) (hi : i.isPlain = true) :
    (code.push i).Labelled := by
  refine h.push ?_ ?_
  · cases i <;> first | rfl | cases hi
  · rintro op label rfl
    cases hi

theorem Labelled.addLabel (h : code.Labelled) : code.addLabel.Labelled := by
  exact ⟨h.isMarked.addLabel _ _, h.isPlaced.addLabel _ _, fun hk => owns_addLabel (h.jumps hk)⟩

theorem Labelled.mark (h : code.Labelled) (howns : code.owns label = true)
    (hfree : code.place? label = none) : (code.mark label).Labelled := by
  refine ⟨h.isMarked.mark howns hfree _ _, h.isPlaced.mark howns _ _, fun {k op l} hk => ?_⟩
  · rw [owns_mark]
    simp only [entries_mark, Array.getElem?_push] at hk
    split at hk
    · cases hk
    · exact h.jumps hk

/-- The entries and the placed labels of the one sequence are those of the other. -/
structure Grows (code full : Code) : Prop where
  entries : ∀ {k : Nat} {i : Instruction}, code.entries[k]? = some i → full.entries[k]? = some i
  places : ∀ {label : Label} {k : Nat}, code.place? label = some k → full.place? label = some k

theorem Grows.trans {p q r : Code} (h : p.Grows q) (h' : q.Grows r) : p.Grows r :=
  ⟨fun hk => h'.entries (h.entries hk), fun hk => h'.places (h.places hk)⟩

theorem Grows.push (code : Code) (i : Instruction) : code.Grows (code.push i) :=
  ⟨getElem?_push_of_some, id⟩

theorem Grows.mark (howns : label.number < code.places.size) (hfree : code.place? label = none) :
    code.Grows (code.mark label) := by
  refine ⟨getElem?_push_of_some, fun {l k} hk => ?_⟩
  rw [place?_mark code label l howns, if_neg, hk]
  intro heq
  rw [place?, heq, ← place?, hfree] at hk
  cases hk

theorem Grows.at_end (h : (code.push i).Grows full) :
    full.entries[code.entries.size]? = some i :=
  h.entries (by simp)

/-- The second sequence goes on from the first with a complete piece of code: the labels made for
it are placed, and the others are as they were. There are no more new labels than new jumps. -/
structure Fragment (code code' : Code) : Prop where
  serial : code'.serial = code.serial
  isSealed : code'.isSealed = code.isSealed
  entries : code.entries.toList <+: code'.entries.toList
  labels : code.places.size ≤ code'.places.size
  old : ∀ {label : Label}, label.number < code.places.size →
    code'.place? label = code.place? label
  new : ∀ {label : Label}, code.places.size ≤ label.number →
    label.number < code'.places.size → (code'.place? label).isSome
  jumps : code'.places.size + code.jumps ≤ code'.jumps + code.places.size
  labelled : code.Labelled → code'.Labelled

theorem Fragment.refl (code : Code) : code.Fragment code :=
  ⟨rfl, rfl, List.prefix_refl _, le_rfl, fun _ => rfl, fun h h' => absurd h' (by omega),
    (Nat.add_comm _ _).le, id⟩

theorem Fragment.trans {p q r : Code} (h : p.Fragment q) (h' : q.Fragment r) : p.Fragment r := by
  refine ⟨h'.serial.trans h.serial, h'.isSealed.trans h.isSealed, h.entries.trans h'.entries,
    h.labels.trans h'.labels, fun hl => ?_, fun {label} hl hl' => ?_, ?_,
    fun hp => h'.labelled (h.labelled hp)⟩
  · rw [h'.old (hl.trans_le h.labels), h.old hl]
  · by_cases hq : label.number < q.places.size
    · rw [h'.old hq]
      exact h.new hl hq
    · exact h'.new (by omega) hl'
  · have := h.jumps
    have := h'.jumps
    omega

theorem Fragment.push (hi : i.isPlain = true) : code.Fragment (code.push i) :=
  ⟨rfl, rfl, by simp, le_rfl, fun _ => rfl, fun h h' => absurd h' (Nat.not_lt.mpr h),
    by simp only [places_push, jumps_push]; omega, fun hp => hp.push_plain hi⟩

theorem Fragment.grows (h : code.Fragment code') : code.Grows code' := by
  refine ⟨fun {k i} hk => ?_, fun {label k} hk => ?_⟩
  · obtain ⟨rest, hrest⟩ := h.entries
    rw [← Array.getElem?_toList] at hk ⊢
    rw [← hrest, List.getElem?_append_left (List.getElem?_eq_some_iff.mp hk).1]
    exact hk
  · rw [h.old, hk]
    by_contra hlt
    rw [place?_eq_none code label (by omega)] at hk
    cases hk

/-- The sequence behind a jump to a new label, with a second new label for the place where the two
ways meet. -/
def openFork (code : Code) (relation : Relation) : Code :=
  code.addLabel.addLabel.push (.jump (.when relation) code.nextLabel)

/-- The sequence behind the first way of the fork begun at the end of `code`. -/
def turnFork (code first : Code) : Code :=
  (first.push (.jump .always code.addLabel.nextLabel)).mark code.nextLabel

/-- The sequence behind both ways of the fork begun at the end of `code`. -/
def closeFork (code second : Code) : Code :=
  second.mark code.addLabel.nextLabel

/-- A jump at entry `i`, the first way up to entry `k`, and the second way up to entry `j`, where
the two meet. -/
def Forks (full : Code) (relation : Relation) (i k j : Nat) : Prop :=
  ∃ holds done, full.entries[i]? = some (.jump (.when relation) holds) ∧
    full.place? holds = some (k + 1) ∧ full.entries[k]? = some (.jump .always done) ∧
    full.entries[k + 1]? = some (.mark holds) ∧ full.place? done = some j ∧
    full.entries[j]? = some (.mark done)

section Fork

variable {first second : Code} {relation : Relation}

theorem size_places_openFork (code : Code) (relation : Relation) :
    (code.openFork relation).places.size = code.places.size + 2 := by
  simp [openFork]

theorem labels_of_openFork (h : (code.openFork relation).Fragment first) :
    code.places.size + 2 ≤ first.places.size := by
  simpa only [size_places_openFork] using h.labels

theorem place?_of_openFork (h : (code.openFork relation).Fragment first)
    (hl : label.number < code.places.size + 2) : first.place? label = code.place? label := by
  rw [h.old (by rwa [size_places_openFork])]
  simp [openFork]

theorem turnFork_free (h : (code.openFork relation).Fragment first) (i : Instruction) :
    (first.push i).place? code.nextLabel = none := by
  rw [place?_push, place?_of_openFork h (by simp), place?_eq_none _ _ (by simp)]

theorem place?_turnFork (h : (code.openFork relation).Fragment first) (label : Label) :
    (code.turnFork first).place? label = if label.number = code.places.size then
      some (first.entries.size + 1) else first.place? label := by
  have hle := labels_of_openFork h
  rw [turnFork, place?_mark _ _ _ (by simp; omega)]
  simp

theorem size_places_turnFork (code first : Code) :
    (code.turnFork first).places.size = first.places.size := by
  simp [turnFork]

theorem place?_of_turnFork (h₁ : (code.openFork relation).Fragment first)
    (h₂ : (code.turnFork first).Fragment second) (hl : label.number < first.places.size) :
    second.place? label = if label.number = code.places.size then some (first.entries.size + 1)
      else first.place? label := by
  rw [h₂.old (by rwa [size_places_turnFork]), place?_turnFork h₁]

theorem closeFork_free (h₁ : (code.openFork relation).Fragment first)
    (h₂ : (code.turnFork first).Fragment second) :
    second.place? code.addLabel.nextLabel = none := by
  have hle := labels_of_openFork h₁
  rw [place?_of_turnFork h₁ h₂ (by simp; omega), if_neg (by simp),
    place?_of_openFork h₁ (by simp), place?_eq_none _ _ (by simp)]

theorem labels_of_turnFork (h₂ : (code.turnFork first).Fragment second) :
    first.places.size ≤ second.places.size := by
  simpa [turnFork] using h₂.labels

theorem place?_closeFork (h₁ : (code.openFork relation).Fragment first)
    (h₂ : (code.turnFork first).Fragment second) (label : Label) :
    (code.closeFork second).place? label = if label.number = code.places.size + 1 then
      some second.entries.size else second.place? label := by
  have hle := labels_of_openFork h₁
  have hle' := labels_of_turnFork h₂
  rw [closeFork, place?_mark _ _ _ (by simp; omega)]
  simp

theorem Labelled.fork (h : code.Labelled) (h₁ : (code.openFork relation).Fragment first)
    (h₂ : (code.turnFork first).Fragment second) : (code.closeFork second).Labelled := by
  have hle := labels_of_openFork h₁
  have hle' := labels_of_turnFork h₂
  have hserial : first.serial = code.serial := by simpa [openFork] using h₁.serial
  have hserial' : second.serial = code.serial := by simpa [turnFork, hserial] using h₂.serial
  have hopen : (code.openFork relation).Labelled := by
    refine h.addLabel.addLabel.push rfl ?_
    rintro op label hjump
    cases hjump
    simp [owns_iff]
  have hturn : (code.turnFork first).Labelled := by
    refine ((h₁.labelled hopen).push rfl ?_).mark ?_ (turnFork_free h₁ _)
    · rintro op label hjump
      cases hjump
      simp only [owns_iff, nextLabel_owner, serial_addLabel, nextLabel_number,
        size_places_addLabel]
      omega
    · simp only [owns_iff, nextLabel_owner, serial_push, nextLabel_number, places_push]
      omega
  refine (h₂.labelled hturn).mark ?_ (closeFork_free h₁ h₂)
  simp only [owns_iff, nextLabel_owner, serial_addLabel, nextLabel_number, size_places_addLabel]
  omega

theorem Fragment.fork (h₁ : (code.openFork relation).Fragment first)
    (h₂ : (code.turnFork first).Fragment second) : code.Fragment (code.closeFork second) := by
  have hle := labels_of_openFork h₁
  have hle' := labels_of_turnFork h₂
  have hfront : code.entries.toList <+: first.entries.toList :=
    (by simp [openFork] : code.entries.toList <+: (code.openFork relation).entries.toList).trans
      h₁.entries
  have hlater : first.entries.toList <+: second.entries.toList :=
    (by simp [turnFork] : first.entries.toList <+: (code.turnFork first).entries.toList).trans
      h₂.entries
  refine ⟨?_, ?_, ?_, ?_, fun {label} hl => ?_, fun {label} hl hl' => ?_, ?_,
    fun hp => hp.fork h₁ h₂⟩
  · simpa [closeFork, turnFork, openFork, h₁.serial] using h₂.serial
  · simpa [closeFork, turnFork, openFork, h₁.isSealed] using h₂.isSealed
  · exact (hfront.trans hlater).trans (by simp [closeFork])
  · simp only [closeFork, size_places_mark]
    omega
  · rw [place?_closeFork h₁ h₂, if_neg (by omega), place?_of_turnFork h₁ h₂ (by omega),
      if_neg (by omega), place?_of_openFork h₁ (by omega)]
  · rw [place?_closeFork h₁ h₂]
    split
    · rfl
    -- A label other than those of the fork was made in one of its two parts.
    · by_cases hfirst : label.number < first.places.size
      · rw [place?_of_turnFork h₁ h₂ hfirst]
        split
        · rfl
        · refine h₁.new ?_ hfirst
          rw [size_places_openFork]
          omega
      · refine h₂.new ?_ (by simpa [closeFork] using hl')
        rw [size_places_turnFork]
        omega
  · have hopen := h₁.jumps
    have hturn := h₂.jumps
    rw [size_places_openFork] at hopen
    rw [size_places_turnFork] at hturn
    simp only [openFork, turnFork, closeFork, jumps_push, jumps_mark, jumps_addLabel,
      size_places_mark, Instruction.isJump, if_true] at hopen hturn ⊢
    omega

theorem grows_turnFork (h₁ : (code.openFork relation).Fragment first) :
    (first.push (.jump .always code.addLabel.nextLabel)).Grows (code.turnFork first) := by
  have hle := labels_of_openFork h₁
  exact Grows.mark (by simp; omega) (turnFork_free h₁ _)

theorem grows_closeFork (h₁ : (code.openFork relation).Fragment first)
    (h₂ : (code.turnFork first).Fragment second) : second.Grows (code.closeFork second) := by
  have hle := labels_of_openFork h₁
  have hle' := labels_of_turnFork h₂
  exact Grows.mark (by simp; omega) (closeFork_free h₁ h₂)

theorem Fragment.forks (h₁ : (code.openFork relation).Fragment first)
    (h₂ : (code.turnFork first).Fragment second) (hg : (code.closeFork second).Grows full) :
    full.Forks relation code.entries.size first.entries.size second.entries.size := by
  have hturn : (code.turnFork first).Grows full :=
    h₂.grows.trans ((grows_closeFork h₁ h₂).trans hg)
  have hjump := (grows_turnFork h₁).trans hturn
  have hopen := (h₁.grows.trans (Grows.push _ _)).trans hjump
  refine ⟨code.nextLabel, code.addLabel.nextLabel, hopen.at_end, hturn.places ?_, hjump.at_end,
    hturn.entries ?_, hg.places ?_, hg.entries ?_⟩
  · rw [place?_turnFork h₁, if_pos (by simp)]
  · rw [turnFork, entries_mark, Array.getElem?_push, if_pos (by simp)]
  · rw [place?_closeFork h₁ h₂, if_pos (by simp)]
  · simp [closeFork]

end Fork

end Code

end ClassForge
