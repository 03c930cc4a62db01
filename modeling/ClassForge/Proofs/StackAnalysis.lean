import Mathlib
import ClassForge.Sequencing
import ClassForge.Assembly.StackHeight

/-! The analysis of stack heights. It finds heights that every instruction passes on to all that
can run after it, and it finds them whenever there are such heights. -/

namespace ClassForge

namespace Heights

/-- The height at an entry, if it is known. -/
def at? (heights : Heights) (i : Nat) : Option Nat :=
  heights[i]?.join

theorem at?_eq_some {heights : Heights} {i h : Nat} :
    heights.at? i = some h ↔ heights[i]? = some (some h) := by
  simp [at?, Option.join_eq_some_iff]

/-- The heights of the one are heights of the other. -/
def Extends (heights heights' : Heights) : Prop :=
  heights'.size = heights.size ∧ ∀ {i h : Nat}, heights.at? i = some h → heights'.at? i = some h

theorem Extends.refl (heights : Heights) : heights.Extends heights :=
  ⟨rfl, id⟩

theorem Extends.trans {p q r : Heights} (h : p.Extends q) (h' : q.Extends r) : p.Extends r :=
  ⟨h'.1.trans h.1, fun hi => h'.2 (h.2 hi)⟩

theorem at?_setIfInBounds {heights : Heights} {j : Nat} (hj : heights[j]? = some none)
    (out i : Nat) :
    at? (heights.setIfInBounds j (some out)) i = if i = j then some out else heights.at? i := by
  obtain ⟨hlt, -⟩ := Array.getElem?_eq_some_iff.mp hj
  by_cases hij : i = j
  · subst hij
    simp [at?, hlt]
  · have hji : ¬ j = i := fun h => hij h.symm
    simp [at?, hij, hji]

theorem at?_start {size : Nat} (hsize : 0 < size) (i h : Nat) :
    at? ((Array.replicate size none).setIfInBounds 0 (some 0)) i = some h ↔ i = 0 ∧ h = 0 := by
  rw [at?_setIfInBounds (by simp [hsize])]
  split
  · simp [*, eq_comm]
  · have hnone : at? (Array.replicate size none) i = none := by
      simp only [at?, Array.getElem?_replicate]
      split <;> rfl
    simp [*]

/-- What a successful step of the analysis does: the entries of the list get the height, those that
had none are added to the work, and nothing else changes. -/
structure Spreads (out : Nat) (next : List Nat) (heights : Heights) (work : List Nat)
    (heights' : Heights) (work' : List Nat) : Prop where
  grown : heights.Extends heights'
  reached : ∀ j ∈ next, j < heights.size → heights'.at? j = some out
  kept : ∀ j ∈ work, j ∈ work'
  fresh : ∀ {i k : Nat}, heights'.at? i = some k →
    heights.at? i = some k ∨ (i ∈ work' ∧ i ∈ next ∧ k = out)

section Spreads

variable {out j : Nat} {next more : List Nat} {heights heights' : Heights} {work work' : List Nat}

/-- An entry that has the height already, or is none of the sequence, is passed over. -/
theorem Spreads.skip (h : Spreads out more heights work heights' work')
    (hj : j < heights.size → heights.at? j = some out) :
    Spreads out (j :: more) heights work heights' work' := by
  refine ⟨h.grown, fun k hk hlt => ?_, h.kept, fun hik => ?_⟩
  · rcases List.mem_cons.mp hk with rfl | hk
    · exact h.grown.2 (hj hlt)
    · exact h.reached k hk hlt
  · rcases h.fresh hik with hik | ⟨hi, hmore, hk⟩
    · exact .inl hik
    · exact .inr ⟨hi, List.mem_cons_of_mem j hmore, hk⟩

theorem extends_setIfInBounds (hj : heights[j]? = some none) (out : Nat) :
    heights.Extends (heights.setIfInBounds j (some out)) := by
  refine ⟨by simp, fun {i k} hi => ?_⟩
  rw [at?_setIfInBounds hj]
  split
  · next hij =>
    subst hij
    simp [at?, hj] at hi
  · exact hi

theorem Spreads.add (hj : heights[j]? = some none)
    (h : Spreads out more (heights.setIfInBounds j (some out)) (j :: work) heights' work') :
    Spreads out (j :: more) heights work heights' work' := by
  have hset := at?_setIfInBounds hj out
  have hjout : heights'.at? j = some out := h.grown.2 (by simp [hset])
  refine ⟨(extends_setIfInBounds hj out).trans h.grown, fun k hk hlt => ?_,
    fun k hk => h.kept k (List.mem_cons_of_mem j hk), fun {i k} hik => ?_⟩
  · rcases List.mem_cons.mp hk with rfl | hk
    · exact hjout
    · exact h.reached k hk (by simpa using hlt)
  · rcases h.fresh hik with hik | ⟨hi, hmore, hk⟩
    · rw [hset] at hik
      split at hik
      · next hij =>
        subst hij
        exact .inr ⟨h.kept i (by simp), by simp, by simpa using hik.symm⟩
      · exact .inl hik
    · exact .inr ⟨hi, List.mem_cons_of_mem j hmore, hk⟩

theorem spread_eq_ok (h : spread out next (heights, work) = .ok (heights', work')) :
    Spreads out next heights work heights' work' := by
  induction next generalizing heights work with
  | nil =>
    cases h
    exact ⟨.refl _, by simp, fun _ => id, .inl⟩
  | cons j more ih =>
    simp only [spread] at h
    split at h
    · next hj => exact .add hj (ih h)
    · next height hj =>
      split at h
      · next heq =>
        subst heq
        exact (ih h).skip fun _ => at?_eq_some.mpr hj
      · cases h
    · next hj =>
      have hsize := Array.getElem?_eq_none_iff.mp hj
      exact (ih h).skip fun hlt => absurd hlt (Nat.not_lt.mpr hsize)

end Spreads

theorem spread_succeeds (out : Nat) {next : List Nat} {heights : Heights} (work : List Nat)
    (h : ∀ j ∈ next, ∀ k, heights.at? j = some k → k = out) :
    ∃ known, spread out next (heights, work) = .ok known := by
  induction next generalizing heights work with
  | nil => exact ⟨_, rfl⟩
  | cons j more ih =>
    simp only [spread]
    split
    · rename_i hj
      apply ih
      intro i hi k hk
      rw [at?_setIfInBounds hj] at hk
      split at hk
      · simpa using hk.symm
      · exact h i (by simp [hi]) k hk
    · rename_i height hj
      have heq := h j (by simp) height (at?_eq_some.mpr hj)
      simp only [heq, if_true]
      exact ih work fun i hi => h i (by simp [hi])
    · exact ih work fun i hi => h i (by simp [hi])

end Heights

/-- Whether the entry behind the instruction is the only one that can run next. -/
def Instruction.flowsOn : Instruction → Bool
  | jump _ _ => false
  | simple op => op ≠ Opcode.returnVoid.byte
  | _ => true

namespace Code

/-- Entry `i` can run at the height `h`, and the height `out` it leaves is that of every entry that
can run after it. -/
def Carries (code : Code) (heights : Nat → Option Nat) (i h out : Nat) : Prop :=
  ∃ instruction pops pushes next, code.entries[i]? = some instruction ∧
    instruction.effect = .ok (pops, pushes) ∧ pops ≤ h ∧ out = h - pops + pushes ∧
    code.successors i instruction = .ok next ∧ ∀ j ∈ next, heights j = some out

/-- Every entry that has a height can run at it and passes it on. -/
def Consistent (code : Code) (heights : Nat → Option Nat) : Prop :=
  ∀ {i h : Nat}, heights i = some h → ∃ out, code.Carries heights i h out

theorem Carries.mono {code : Code} {heights heights' : Nat → Option Nat} {i h out : Nat}
    (hc : code.Carries heights i h out)
    (hmono : ∀ j k, heights j = some k → heights' j = some k) : code.Carries heights' i h out := by
  obtain ⟨instruction, pops, pushes, next, hi, he, hp, ho, hs, hn⟩ := hc
  exact ⟨instruction, pops, pushes, next, hi, he, hp, ho, hs, fun j hj => hmono j out (hn j hj)⟩

theorem successors_of_flowsOn {code : Code} {i : Nat} {instruction : Instruction}
    (hf : instruction.flowsOn = true) :
    code.successors i instruction = (do return [← code.following i]) := by
  cases instruction with
  | jump op label => cases hf
  | simple op =>
    have hop : op ≠ Opcode.returnVoid.byte := by simpa [Instruction.flowsOn] using hf
    simp only [successors, hop, if_false]
  | _ => rfl

theorem lt_of_following {code : Code} {i j : Nat} (h : code.following i = .ok j) :
    j = i + 1 ∧ j < code.entries.size := by
  simp only [following] at h
  split at h
  · cases h
    exact ⟨rfl, ‹_›⟩
  · cases h

theorem lt_of_destination {code : Code} {label : Label} {j : Nat}
    (h : code.destination label = .ok j) :
    code.place? label = some j ∧ j < code.entries.size := by
  simp only [destination] at h
  split at h
  · split at h
    · cases h
      exact ⟨‹_›, ‹_›⟩
    · cases h
  · cases h

/-- What can run after an entry is the next one, or the entry that the label of a jump marks. -/
theorem mem_successors {code : Code} {i : Nat} {instruction : Instruction} {next : List Nat}
    (h : code.successors i instruction = .ok next) {j : Nat} (hj : j ∈ next) :
    j < code.entries.size ∧
      (j = i + 1 ∨ ∃ op label, instruction = .jump op label ∧ code.place? label = some j) := by
  have hfollow : ∀ {next : List Nat}, (do return [← code.following i]) = Except.ok next →
      j ∈ next → j < code.entries.size ∧ j = i + 1 := by
    intro next h hj
    obtain ⟨k, hk, h⟩ := except_bind_eq_ok.mp h
    cases h
    cases List.mem_singleton.mp hj
    exact (lt_of_following hk).symm
  cases instruction with
  | jump op label =>
    have htarget (hl : code.destination label = .ok j) : j < code.entries.size ∧
        (j = i + 1 ∨ ∃ op' label', Instruction.jump op label = .jump op' label' ∧
          code.place? label' = some j) :=
      ⟨(lt_of_destination hl).2, .inr ⟨op, label, rfl, (lt_of_destination hl).1⟩⟩
    cases op with
    | always =>
      obtain ⟨k, hk, h⟩ := except_bind_eq_ok.mp h
      cases h
      cases List.mem_singleton.mp hj
      exact htarget hk
    | when relation =>
      obtain ⟨k, hk, h⟩ := except_bind_eq_ok.mp h
      obtain ⟨k', hk', h⟩ := except_bind_eq_ok.mp h
      cases h
      rcases List.mem_pair.mp hj with rfl | rfl
      · exact htarget hk
      · exact ⟨(lt_of_following hk').2, .inl (lt_of_following hk').1⟩
  | simple op =>
    simp only [successors] at h
    split at h
    · cases h
      cases hj
    · exact (hfollow h hj).imp_right .inl
  | _ => exact (hfollow h hj).imp_right .inl

theorem successors_goto {code : Code} {i t : Nat} {label : Label} {next : List Nat}
    (h : code.successors i (.jump .always label) = .ok next)
    (ht : code.place? label = some t) : next = [t] := by
  obtain ⟨t', ht', h⟩ := except_bind_eq_ok.mp h
  cases h
  rw [(lt_of_destination ht').1] at ht
  cases ht
  rfl

theorem successors_branch {code : Code} {i t : Nat} {relation : Relation} {label : Label}
    {next : List Nat} (h : code.successors i (.jump (.when relation) label) = .ok next)
    (ht : code.place? label = some t) : next = [t, i + 1] := by
  obtain ⟨t', ht', h⟩ := except_bind_eq_ok.mp h
  obtain ⟨f, hf, h⟩ := except_bind_eq_ok.mp h
  cases h
  rw [(lt_of_destination ht').1] at ht
  cases ht
  rw [(lt_of_following hf).1]

/-- Entry `j` can run directly after entry `i`. -/
def Flows (code : Code) (i j : Nat) : Prop :=
  ∃ instruction next, code.entries[i]? = some instruction ∧
    code.successors i instruction = .ok next ∧ j ∈ next

/-- The entries that can be reached from the first one. -/
abbrev Reachable (code : Code) : Nat → Prop :=
  Relation.ReflTransGen code.Flows 0

/-- The height that entry `i` leaves when it runs at a height, and the entries that get it. -/
def departure (code : Code) (i : Nat) (instruction : Instruction) (height : Nat) :
    Except AssemblyError (Nat × List Nat) :=
  match instruction.effect with
  | .error e => .error (.instruction i instruction e)
  | .ok (pops, pushes) =>
    if height < pops then .error (.underflow i instruction)
    else (code.successors i instruction).map (height - pops + pushes, ·)

theorem departure_eq_ok {code : Code} {i height out : Nat} {instruction : Instruction}
    {next : List Nat} : code.departure i instruction height = .ok (out, next) ↔
      ∃ pops pushes, instruction.effect = .ok (pops, pushes) ∧ pops ≤ height ∧
        out = height - pops + pushes ∧ code.successors i instruction = .ok next := by
  simp only [departure]
  cases instruction.effect with
  | error e => simp
  | ok words =>
    by_cases hpops : height < words.1
    · simp only [hpops, if_true, reduceCtorEq, false_iff]
      rintro ⟨pops, pushes, hwords, hle, -⟩
      cases hwords
      omega
    · simp only [hpops, if_false]
      cases code.successors i instruction with
      | error e => simp [Except.map]
      | ok next' =>
        simp only [Except.map, Except.ok.injEq, Prod.mk.injEq]
        constructor
        · rintro ⟨rfl, rfl⟩
          exact ⟨words.1, words.2, rfl, by omega, rfl, rfl⟩
        · rintro ⟨pops, pushes, rfl, -, rfl, rfl⟩
          exact ⟨rfl, rfl⟩

theorem carries_iff {code : Code} {heights : Nat → Option Nat} {i h out : Nat} :
    code.Carries heights i h out ↔ ∃ instruction next, code.entries[i]? = some instruction ∧
      code.departure i instruction h = .ok (out, next) ∧ ∀ j ∈ next, heights j = some out := by
  simp only [Carries, departure_eq_ok]
  constructor
  · rintro ⟨instruction, pops, pushes, next, hi, he, hp, ho, hs, hn⟩
    exact ⟨instruction, next, hi, ⟨pops, pushes, he, hp, ho, hs⟩, hn⟩
  · rintro ⟨instruction, next, hi, ⟨pops, pushes, he, hp, ho, hs⟩, hn⟩
    exact ⟨instruction, pops, pushes, next, hi, he, hp, ho, hs, hn⟩

theorem Carries.unique {code : Code} {heights heights' : Nat → Option Nat} {i h out out' : Nat}
    (hc : code.Carries heights i h out) (hc' : code.Carries heights' i h out') : out = out' := by
  obtain ⟨instruction, next, hi, hd, -⟩ := carries_iff.mp hc
  obtain ⟨instruction', next', hi', hd', -⟩ := carries_iff.mp hc'
  rw [hi] at hi'
  cases hi'
  rw [hd] at hd'
  cases hd'
  rfl

theorem flows_of_departure {code : Code} {i j height out : Nat} {instruction : Instruction}
    {next : List Nat} (hi : code.entries[i]? = some instruction)
    (hd : code.departure i instruction height = .ok (out, next)) (hj : j ∈ next) :
    code.Flows i j := by
  obtain ⟨pops, pushes, -, -, -, hs⟩ := departure_eq_ok.mp hd
  exact ⟨instruction, next, hi, hs, hj⟩

theorem Carries.passes {code : Code} {heights : Nat → Option Nat} {i j h out : Nat}
    (hc : code.Carries heights i h out) (hf : code.Flows i j) : heights j = some out := by
  obtain ⟨instruction, pops, pushes, next, hi, -, -, -, hs, hn⟩ := hc
  obtain ⟨instruction', next', hi', hs', hj⟩ := hf
  rw [hi] at hi'
  cases hi'
  rw [hs] at hs'
  cases hs'
  exact hn j hj

end Code

/-- The state of the analysis: the heights found so far, the greatest height that an instruction
has left, and the entries that are still to be visited. -/
structure Survey where
  heights : Heights
  deepest : Nat
  work : List Nat

namespace Survey

open Heights

variable {code : Code} {s t u : Survey} {i n : Nat}

/-- One turn of the analysis, in which entry `i` is visited. -/
def visit (code : Code) (s : Survey) (i : Nat) : Except AssemblyError Survey :=
  match code.entries[i]?, s.heights[i]? with
  | some instruction, some (some height) => do
    let (out, next) ← code.departure i instruction height
    let (heights, work) ← spread out next (s.heights, s.work)
    return ⟨heights, max s.deepest out, work⟩
  | _, _ => .ok s

theorem visit_of_known {instruction : Instruction} {height : Nat}
    (hi : code.entries[i]? = some instruction) (hh : s.heights.at? i = some height) :
    visit code s i = (do
      let (out, next) ← code.departure i instruction height
      let (heights, work) ← spread out next (s.heights, s.work)
      return ⟨heights, max s.deepest out, work⟩) := by
  simp only [visit, hi, at?_eq_some.mp hh]

theorem visit_of_unknown (hnone : code.entries[i]? = none ∨ s.heights.at? i = none) :
    visit code s i = .ok s := by
  unfold visit
  split
  · next hi hh =>
    rw [hi, at?_eq_some.mpr hh] at hnone
    simp at hnone
  · rfl

theorem visit_eq_ok (h : visit code s i = .ok t) :
    (code.entries[i]? = none ∨ s.heights.at? i = none) ∧ t = s ∨
      ∃ instruction height out next, code.entries[i]? = some instruction ∧
        s.heights.at? i = some height ∧ code.departure i instruction height = .ok (out, next) ∧
        spread out next (s.heights, s.work) = .ok (t.heights, t.work) ∧
        t.deepest = max s.deepest out := by
  cases hi : code.entries[i]? with
  | none =>
    rw [visit_of_unknown (.inl hi)] at h
    cases h
    exact .inl ⟨.inl rfl, rfl⟩
  | some instruction =>
    cases hh : s.heights.at? i with
    | none =>
      rw [visit_of_unknown (.inr hh)] at h
      cases h
      exact .inl ⟨.inr rfl, rfl⟩
    | some height =>
      rw [visit_of_known hi hh] at h
      obtain ⟨⟨out, next⟩, hd, h⟩ := except_bind_eq_ok.mp h
      obtain ⟨⟨heights, work⟩, hspread, h⟩ := except_bind_eq_ok.mp h
      cases h
      exact .inr ⟨instruction, height, out, next, rfl, rfl, hd, hspread, rfl⟩

/-- The entries that have no height yet or are still to be visited. -/
def weight (s : Survey) : Nat :=
  s.heights.unknown + s.work.length

theorem weight_spread {out : Nat} {next work work' : List Nat} {heights heights' : Heights}
    (h : spread out next (heights, work) = .ok (heights', work')) :
    heights'.unknown + work'.length = heights.unknown + work.length := by
  induction next generalizing heights work with
  | nil =>
    cases h
    rfl
  | cons j more ih =>
    simp only [spread] at h
    split at h
    · next hj =>
      obtain ⟨hlt, hnone⟩ := Array.getElem?_eq_some_iff.mp hj
      have hpos : 0 < heights.unknown :=
        Array.countP_pos_iff.mpr ⟨none, hnone ▸ Array.getElem_mem hlt, rfl⟩
      have hless : Heights.unknown (heights.setIfInBounds j (some out)) = heights.unknown - 1 := by
        simp [unknown, Array.setIfInBounds, hlt, Array.countP_set, hnone]
      have hrest := ih h
      simp only [hless, List.length_cons] at hrest
      omega
    · split at h
      · exact ih h
      · cases h
    · exact ih h

theorem weight_visit (h : visit code s i = .ok t) : t.weight = s.weight := by
  rcases visit_eq_ok h with ⟨-, rfl⟩ | ⟨instruction, height, out, next, -, -, -, hspread, -⟩
  · rfl
  · exact weight_spread hspread

/-- A visit of any of the entries that are still to be visited. -/
def Turn (code : Code) (s t : Survey) : Prop :=
  ∃ i rest, s.work.Perm (i :: rest) ∧ visit code { s with work := rest } i = .ok t

/-- A visit of one of the entries that are still to be visited fails. -/
def Refused (code : Code) (s : Survey) : Prop :=
  ∃ i rest e, s.work.Perm (i :: rest) ∧ visit code { s with work := rest } i = .error e

/-- A number of turns, in any order of the entries. -/
inductive Turns (code : Code) (s : Survey) : Nat → Survey → Prop where
  | refl : Turns code s 0 s
  | tail {n : Nat} {t u : Survey} : Turns code s n t → Turn code t u → Turns code s (n + 1) u

theorem Turns.head (hturn : Turn code s t) (h : Turns code t n u) : Turns code s (n + 1) u := by
  induction h with
  | refl => exact .tail .refl hturn
  | tail _ hlast ih => exact .tail ih hlast

theorem Turn.weight_eq (h : Turn code s t) : t.weight + 1 = s.weight := by
  obtain ⟨i, rest, hwork, hvisit⟩ := h
  have hsame := weight_visit hvisit
  have hlength := hwork.length_eq
  simp only [weight, List.length_cons] at hsame hlength ⊢
  omega

theorem Turns.weight_eq (h : Turns code s n t) : t.weight + n = s.weight := by
  induction h with
  | refl => rfl
  | tail _ hlast ih =>
    have hstep := hlast.weight_eq
    omega

/-- What the heights that have been found tell, whatever the order of the visits. -/
structure Sound (code : Code) (s : Survey) : Prop where
  size : s.heights.size = code.entries.size
  first : s.heights.at? 0 = some 0
  reachable : ∀ {i h : Nat}, s.heights.at? i = some h → code.Reachable i
  explored : ∀ {i h : Nat}, s.heights.at? i = some h →
    i ∈ s.work ∨ ∃ out, code.Carries s.heights.at? i h out ∧ out ≤ s.deepest
  attained : s.deepest = 0 ∨
    ∃ i h, s.heights.at? i = some h ∧ code.Carries s.heights.at? i h s.deepest

theorem Sound.turn (hs : Sound code s) (hturn : Turn code s t) : Sound code t := by
  obtain ⟨i, rest, hwork, hvisit⟩ := hturn
  have hwork {j : Nat} : j ∈ s.work ↔ j = i ∨ j ∈ rest := by
    rw [hwork.mem_iff, List.mem_cons]
  rcases visit_eq_ok hvisit with ⟨hnone, rfl⟩ |
    ⟨instruction, height, out, next, hi, hheight, hd, hspread, hdeepest⟩
  · refine ⟨hs.size, hs.first, hs.reachable, fun {j h} hj => ?_, hs.attained⟩
    rcases hs.explored hj with hmem | hcarries
    · rcases hwork.mp hmem with rfl | hmem
      · -- An entry with a height is an entry of the sequence.
        obtain ⟨hlt, -⟩ := Array.getElem?_eq_some_iff.mp (at?_eq_some.mp hj)
        have hsome := Array.getElem?_eq_getElem (hs.size ▸ hlt)
        rw [hsome, show s.heights.at? j = some h from hj] at hnone
        simp at hnone
      · exact .inl hmem
    · exact .inr hcarries
  · dsimp only at hdeepest
    obtain ⟨hext, hnext, hold, hnew⟩ := spread_eq_ok hspread
    have hcarries : code.Carries t.heights.at? i height out := by
      refine Code.carries_iff.mpr ⟨instruction, next, hi, hd, fun j hj => hnext j hj ?_⟩
      obtain ⟨-, -, -, -, -, hsuccessors⟩ := Code.departure_eq_ok.mp hd
      exact hs.size ▸ (Code.mem_successors hsuccessors hj).1
    -- Heights are only added, so what an entry passed on before it still passes on.
    have hgrown {j h o : Nat} (hc : code.Carries s.heights.at? j h o) :
        code.Carries t.heights.at? j h o :=
      hc.mono fun _ _ => hext.2
    refine ⟨hext.1.trans hs.size, hext.2 hs.first, fun {j h} hj => ?_, fun {j h} hj => ?_, ?_⟩
    · rcases hnew hj with hj | ⟨-, hmem, -⟩
      · exact hs.reachable hj
      · exact (hs.reachable hheight).tail (Code.flows_of_departure hi hd hmem)
    · rcases hnew hj with hj | ⟨hmem, -, -⟩
      · rcases hs.explored hj with hmem | ⟨out', hc, hle⟩
        · rcases hwork.mp hmem with rfl | hmem
          · have heq : h = height := Option.some.inj (hj.symm.trans hheight)
            exact .inr ⟨out, heq ▸ hcarries, by omega⟩
          · exact .inl (hold j hmem)
        · exact .inr ⟨out', hgrown hc, by omega⟩
      · exact .inl hmem
    · by_cases hle : out ≤ s.deepest
      · rw [hdeepest, Nat.max_eq_left hle]
        rcases hs.attained with hzero | ⟨j, h, hj, hc⟩
        · exact .inl hzero
        · exact .inr ⟨j, h, hext.2 hj, hgrown hc⟩
      · rw [hdeepest, Nat.max_eq_right (by omega)]
        exact .inr ⟨i, height, hext.2 hheight, hcarries⟩

theorem Sound.turns (hs : Sound code s) (h : Turns code s n t) : Sound code t := by
  induction h with
  | refl => exact hs
  | tail _ hlast ih => exact ih.turn hlast

section Assigned

variable {assigned : Nat → Option Nat}

/-- The heights that have been found are the assigned ones. -/
def Agrees (assigned : Nat → Option Nat) (s : Survey) : Prop :=
  ∀ {i h : Nat}, s.heights.at? i = some h → assigned i = some h

theorem Agrees.departure (hc : code.Consistent assigned) (ha : Agrees assigned s)
    {instruction : Instruction} {height : Nat} (hi : code.entries[i]? = some instruction)
    (hh : s.heights.at? i = some height) :
    ∃ out next, code.departure i instruction height = .ok (out, next) ∧
      ∀ j ∈ next, assigned j = some out := by
  obtain ⟨out, hcarries⟩ := hc (ha hh)
  obtain ⟨instruction', next, hi', hd, hn⟩ := Code.carries_iff.mp hcarries
  rw [hi] at hi'
  cases hi'
  exact ⟨out, next, hd, hn⟩

theorem Agrees.turn (hc : code.Consistent assigned) (ha : Agrees assigned s)
    (hturn : Turn code s t) : Agrees assigned t := by
  obtain ⟨i, rest, -, hvisit⟩ := hturn
  rcases visit_eq_ok hvisit with ⟨-, rfl⟩ |
    ⟨instruction, height, out, next, hi, hheight, hd, hspread, -⟩
  · exact ha
  · obtain ⟨out', next', hd', hn⟩ := ha.departure hc hi hheight
    rw [hd] at hd'
    cases hd'
    intro j h hj
    rcases (spread_eq_ok hspread).fresh hj with hj | ⟨-, hmem, rfl⟩
    · exact ha hj
    · exact hn j hmem

theorem Agrees.turns (hc : code.Consistent assigned) (ha : Agrees assigned s)
    (h : Turns code s n t) : Agrees assigned t := by
  induction h with
  | refl => exact ha
  | tail _ hlast ih => exact Agrees.turn hc ih hlast

theorem Agrees.not_refused (hc : code.Consistent assigned) (ha : Agrees assigned s) :
    ¬ s.Refused code := by
  rintro ⟨i, rest, e, -, hvisit⟩
  let s' : Survey := { s with work := rest }
  cases hi : code.entries[i]? with
  | none =>
    rw [visit_of_unknown (.inl hi)] at hvisit
    cases hvisit
  | some instruction =>
    cases hh : s'.heights.at? i with
    | none =>
      rw [visit_of_unknown (.inr hh)] at hvisit
      cases hvisit
    | some height =>
      obtain ⟨out, next, hd, hn⟩ := ha.departure hc hi hh
      have hforced : ∀ j ∈ next, ∀ k, s.heights.at? j = some k → k = out := by
        intro j hj k hk
        exact Option.some.inj ((ha hk).symm.trans (hn j hj))
      obtain ⟨⟨heights, work⟩, hspread⟩ := spread_succeeds out rest hforced
      rw [visit_of_known hi hh, hd] at hvisit
      simp only [s', hspread, bind, Except.bind] at hvisit
      cases hvisit

end Assigned

theorem explore_cons (code : Code) (s : Survey) (i : Nat) :
    explore code s.heights s.deepest (i :: s.work) =
      (do
        let t ← visit code s i
        explore code t.heights t.deepest t.work) := by
  rw [explore]
  split
  · next instruction height hi hheight =>
    rw [visit_of_known hi (at?_eq_some.mpr hheight)]
    simp only [Code.departure]
    cases instruction.effect with
    | error e => rfl
    | ok words =>
      by_cases hpops : height < words.1
      · simp only [hpops, if_true]
        rfl
      · simp only [hpops, if_false]
        cases code.successors i instruction with
        | error e => rfl
        | ok next =>
          dsimp only [Except.map]
          split
          · next hspread => simp only [hspread, bind, Except.bind]
          · next hspread => simp only [hspread, bind, Except.bind, pure, Except.pure]
  · next hnone =>
    have hunknown : code.entries[i]? = none ∨ s.heights.at? i = none := by
      by_contra hknown
      rw [not_or] at hknown
      obtain ⟨instruction, hi⟩ := Option.ne_none_iff_exists'.mp hknown.1
      obtain ⟨height, hh⟩ := Option.ne_none_iff_exists'.mp hknown.2
      exact hnone instruction height hi (at?_eq_some.mp hh)
    rw [visit_of_unknown hunknown]
    rfl

/-- What holds of a state whenever it holds after each of its turns holds of all states. -/
theorem turn_induction {P : Survey → Prop} (code : Code)
    (step : ∀ s, (∀ t, Turn code s t → P t) → P s) (s : Survey) : P s := by
  induction hn : s.weight using Nat.strong_induction_on generalizing s with
  | _ n ih =>
    apply step
    intro t hturn
    have hless := hturn.weight_eq
    exact ih t.weight (by omega) t rfl

/-- The loop makes turns until no entry is left or a visit fails. -/
theorem explore_turns (code : Code) (s : Survey) :
    ∃ n t, Turns code s n t ∧
      (t.work = [] ∧ explore code s.heights s.deepest s.work = .ok (t.heights, t.deepest) ∨
        t.Refused code ∧ ∃ e, explore code s.heights s.deepest s.work = .error e) := by
  induction s using turn_induction code with
  | step s ih =>
    cases hwork : s.work with
    | nil => exact ⟨0, s, .refl, .inl ⟨hwork, by rw [explore]⟩⟩
    | cons i rest =>
      have hperm : s.work.Perm (i :: rest) := by rw [hwork]
      have hloop := explore_cons code { s with work := rest } i
      dsimp only at hloop
      rw [hloop]
      cases hvisit : visit code { s with work := rest } i with
      | error e => exact ⟨0, s, .refl, .inr ⟨⟨i, rest, e, hperm, hvisit⟩, e, rfl⟩⟩
      | ok t =>
        have hturn : Turn code s t := ⟨i, rest, hperm, hvisit⟩
        obtain ⟨n, u, hturns, hend⟩ := ih t hturn
        exact ⟨n + 1, u, hturns.head hturn, hend⟩

/-- At the start only the first entry has a height, and it is to be visited. -/
def initial (code : Code) : Survey where
  heights := (Array.replicate code.entries.size none).setIfInBounds 0 (some 0)
  deepest := 0
  work := [0]

theorem Sound.initial (hsize : 0 < code.entries.size) : Sound code (initial code) := by
  have hstart := at?_start hsize
  have hfirst := (hstart 0 0).mpr ⟨rfl, rfl⟩
  refine ⟨by simp [Survey.initial], hfirst, fun hi => ?_, fun hi => ?_, .inl rfl⟩
  · obtain ⟨rfl, -⟩ := (hstart _ _).mp hi
    exact .refl
  · obtain ⟨rfl, -⟩ := (hstart _ _).mp hi
    exact .inl (List.mem_singleton_self 0)

theorem Agrees.initial {assigned : Nat → Option Nat} (hsize : 0 < code.entries.size)
    (hzero : assigned 0 = some 0) : Agrees assigned (initial code) := by
  intro i h hi
  obtain ⟨rfl, rfl⟩ := (at?_start hsize i h).mp hi
  exact hzero

theorem Sound.carries (hs : Sound code s) (hdone : s.work = []) {h : Nat}
    (hi : s.heights.at? i = some h) :
    ∃ out, code.Carries s.heights.at? i h out ∧ out ≤ s.deepest := by
  rcases hs.explored hi with hmem | hcarries
  · rw [hdone] at hmem
    cases hmem
  · exact hcarries

end Survey

namespace Code

variable {code : Code}

theorem turns_of_stackHeights {heights : Heights} {deepest : Nat}
    (h : code.stackHeights = .ok (heights, deepest)) :
    ∃ n, Survey.Turns code (.initial code) n ⟨heights, deepest, []⟩ := by
  obtain ⟨n, t, hturns, ⟨hdone, hok⟩ | ⟨-, e, herror⟩⟩ := Survey.explore_turns code (.initial code)
  · cases h.symm.trans hok
    rw [← hdone]
    exact ⟨n, hturns⟩
  · cases h.symm.trans herror

/-- The heights that are found are consistent, and none that is passed on exceeds the greatest. -/
theorem stackHeights_sound {heights : Heights} {deepest : Nat} (hsize : 0 < code.entries.size)
    (h : code.stackHeights = .ok (heights, deepest)) :
    heights.at? 0 = some 0 ∧ ∀ {i h : Nat}, heights.at? i = some h →
      ∃ out, code.Carries heights.at? i h out ∧ out ≤ deepest := by
  obtain ⟨n, hturns⟩ := turns_of_stackHeights h
  have hs := (Survey.Sound.initial hsize).turns hturns
  exact ⟨hs.first, hs.carries rfl⟩

/-- Heights that are consistent and start at 0 are found. -/
theorem stackHeights_complete {assigned : Nat → Option Nat} (hc : code.Consistent assigned)
    (hzero : assigned 0 = some 0) {bound : Nat} (hbound : ∀ {i h out : Nat}, assigned i = some h →
      code.Carries assigned i h out → out ≤ bound) :
    ∃ heights deepest, code.stackHeights = .ok (heights, deepest) ∧ deepest ≤ bound := by
  obtain ⟨out, instruction, pops, pushes, next, hi, -⟩ := hc hzero
  obtain ⟨hsize, -⟩ := Array.getElem?_eq_some_iff.mp hi
  obtain ⟨n, t, hturns, hend⟩ := Survey.explore_turns code (.initial code)
  have ha : t.Agrees assigned := Survey.Agrees.turns hc (Survey.Agrees.initial hsize hzero) hturns
  have hs := (Survey.Sound.initial hsize).turns hturns
  rcases hend with ⟨-, hok⟩ | ⟨hrefused, -⟩
  · refine ⟨t.heights, t.deepest, hok, ?_⟩
    rcases hs.attained with hdeepest | ⟨i, h, hi, hcarries⟩
    · omega
    · exact hbound (ha hi) (hcarries.mono fun _ _ => ha)
  · exact absurd hrefused (ha.not_refused hc)

end Code

end ClassForge
