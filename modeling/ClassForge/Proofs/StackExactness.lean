import ClassForge.Proofs.StackAnalysis

/-! The analysis of stack heights is exact. It succeeds if and only if the entries that can be
reached have heights that fit together. These heights are forced, so they are found in whatever
order the entries are visited, and what cannot be reached has no part in them. -/

namespace ClassForge

theorem Heights.ext_at? {heights heights' : Heights} (hsize : heights.size = heights'.size)
    (h : ∀ i k, heights.at? i = some k ↔ heights'.at? i = some k) : heights = heights' := by
  apply Array.ext hsize
  intro i hi hi'
  apply Option.ext
  intro k
  have hk := h i k
  simp only [at?_eq_some, Array.getElem?_eq_getElem hi, Array.getElem?_eq_getElem hi',
    Option.some.injEq] at hk
  exact hk

namespace Code

variable {code : Code} {heights : Nat → Nat}

/-- Heights that fit together: 0 at the first entry, and every entry that can be reached can run at
its height and leaves the height of all entries that can run after it. -/
def Balanced (code : Code) (heights : Nat → Nat) : Prop :=
  heights 0 = 0 ∧ ∀ i, code.Reachable i →
    ∃ out, code.Carries (fun j => some (heights j)) i (heights i) out

/-- What the entries that can be reached leave. -/
def departures (code : Code) (heights : Nat → Nat) : Set Nat :=
  {out | ∃ i, code.Reachable i ∧ code.Carries (fun j => some (heights j)) i (heights i) out}

/-- Only the heights of the entries that can be reached matter. -/
theorem Balanced.exists_consistent (hb : code.Balanced heights) :
    ∃ assigned, code.Consistent assigned ∧
      ∀ {i h : Nat}, assigned i = some h ↔ code.Reachable i ∧ heights i = h := by
  classical
  let assigned (i : Nat) : Option Nat := if code.Reachable i then some (heights i) else none
  have hassigned {i h : Nat} : assigned i = some h ↔ code.Reachable i ∧ heights i = h := by
    by_cases hr : code.Reachable i
    · simp [assigned, hr]
    · simp [assigned, hr]
  refine ⟨assigned, fun {i h} hi => ?_, hassigned⟩
  obtain ⟨hr, rfl⟩ := hassigned.mp hi
  obtain ⟨out, hcarries⟩ := hb.2 i hr
  obtain ⟨instruction, next, hentry, hd, hn⟩ := carries_iff.mp hcarries
  refine ⟨out, carries_iff.mpr ⟨instruction, next, hentry, hd, fun j hj => ?_⟩⟩
  have hj' := hr.tail (flows_of_departure hentry hd hj)
  exact hassigned.mpr ⟨hj', Option.some.inj (hn j hj)⟩

end Code

namespace Survey

open Heights

variable {code : Code} {s t : Survey} {heights : Nat → Nat} {i n m : Nat}

theorem weight_initial (hsize : 0 < code.entries.size) :
    (initial code).weight = code.entries.size := by
  have hunknown : (initial code).heights.unknown = code.entries.size - 1 := by
    simp [initial, unknown, Array.setIfInBounds, hsize, Array.countP_set, Array.countP_replicate]
  rw [weight, hunknown, show (initial code).work.length = 1 from rfl]
  omega

/-- Heights that fit together are the ones that are found, and no visit fails. -/
theorem Turns.agrees (hb : code.Balanced heights) (hsize : 0 < code.entries.size)
    (h : Turns code (initial code) n s) :
    (∀ i k, s.heights.at? i = some k → heights i = k) ∧ ¬ s.Refused code := by
  obtain ⟨assigned, hc, hassigned⟩ := hb.exists_consistent
  have hzero : assigned 0 = some 0 := hassigned.mpr ⟨.refl, hb.1⟩
  have ha : Agrees assigned s := Agrees.turns hc (Agrees.initial hsize hzero) h
  exact ⟨fun i k hi => (hassigned.mp (ha hi)).2, ha.not_refused hc⟩

theorem Sound.exists_height (hs : Sound code s) (hdone : s.work = []) (hr : code.Reachable i) :
    ∃ h, s.heights.at? i = some h := by
  induction hr with
  | refl => exact ⟨0, hs.first⟩
  | tail _ hflows ih =>
    obtain ⟨h, hi⟩ := ih
    obtain ⟨out, hcarries, -⟩ := hs.carries hdone hi
    exact ⟨out, hcarries.passes hflows⟩

theorem Sound.balanced (hs : Sound code s) (hdone : s.work = []) :
    code.Balanced fun i => (s.heights.at? i).getD 0 := by
  refine ⟨by simp [hs.first], fun i hr => ?_⟩
  obtain ⟨h, hi⟩ := hs.exists_height hdone hr
  obtain ⟨out, hcarries, -⟩ := hs.carries hdone hi
  refine ⟨out, ?_⟩
  simp only [hi, Option.getD_some]
  exact hcarries.mono fun j k hj => by simp [hj]

section Finished

variable (hsize : 0 < code.entries.size) (hs : Turns code (initial code) n s) (hdone : s.work = [])
include hsize hs hdone

theorem Turns.at?_iff (hb : code.Balanced heights) (i h : Nat) :
    s.heights.at? i = some h ↔ code.Reachable i ∧ heights i = h := by
  have hsound := (Sound.initial hsize).turns hs
  have hagrees := (Turns.agrees hb hsize hs).1
  constructor
  · intro hi
    exact ⟨hsound.reachable hi, hagrees i h hi⟩
  · rintro ⟨hr, rfl⟩
    obtain ⟨h, hi⟩ := hsound.exists_height hdone hr
    rw [hi, hagrees i h hi]

theorem Turns.isGreatest (hb : code.Balanced heights) :
    IsGreatest (insert 0 (code.departures heights)) s.deepest := by
  have hsound := (Sound.initial hsize).turns hs
  have hknown := hs.at?_iff hsize hdone hb
  have hassigned : ∀ j k, s.heights.at? j = some k → some (heights j) = some k := by
    intro j k hj
    rw [((hknown j k).mp hj).2]
  constructor
  · rcases hsound.attained with hzero | ⟨i, h, hi, hcarries⟩
    · exact .inl hzero
    · obtain ⟨hr, rfl⟩ := (hknown i h).mp hi
      exact .inr ⟨i, hr, hcarries.mono hassigned⟩
  · rintro out (rfl | ⟨i, hr, hcarries⟩)
    · exact Nat.zero_le _
    · obtain ⟨out', hcarries', hle⟩ := hsound.carries hdone ((hknown i _).mpr ⟨hr, rfl⟩)
      rw [hcarries.unique hcarries']
      exact hle

/-- All orders of the visits lead to the same end. -/
theorem Turns.eq_of_finished (ht : Turns code (initial code) m t) (hdone' : t.work = []) :
    t.heights = s.heights ∧ t.deepest = s.deepest := by
  have hsound := (Sound.initial hsize).turns hs
  have hsound' := (Sound.initial hsize).turns ht
  have hb := hsound.balanced hdone
  refine ⟨ext_at? (hsound'.size.trans hsound.size.symm) fun i k => ?_, ?_⟩
  · rw [hs.at?_iff hsize hdone hb, ht.at?_iff hsize hdone' hb]
  · exact (ht.isGreatest hsize hdone' hb).unique (hs.isGreatest hsize hdone hb)

end Finished

end Survey

namespace Code

variable {code code' : Code}

/-- The analysis has the outcome of any run of turns that has come to its end. -/
theorem stackHeights_of_finished (hsize : 0 < code.entries.size) {n : Nat} {s : Survey}
    (hs : Survey.Turns code (.initial code) n s) (hdone : s.work = []) :
    code.stackHeights = .ok (s.heights, s.deepest) := by
  have hb := ((Survey.Sound.initial hsize).turns hs).balanced hdone
  obtain ⟨m, t, ht, ⟨hdone', hok⟩ | ⟨hrefused, -⟩⟩ := Survey.explore_turns code (.initial code)
  · obtain ⟨hheights, hdeepest⟩ := hs.eq_of_finished hsize hdone ht hdone'
    rw [← hheights, ← hdeepest]
    exact hok
  · exact absurd hrefused (Survey.Turns.agrees hb hsize ht).2

theorem stackHeights_of_refused (hsize : 0 < code.entries.size) {n : Nat} {s : Survey}
    (hs : Survey.Turns code (.initial code) n s) (hrefused : s.Refused code) :
    ∃ e, code.stackHeights = .error e := by
  obtain ⟨m, t, ht, ⟨hdone, -⟩ | ⟨-, herror⟩⟩ := Survey.explore_turns code (.initial code)
  · have hb := ((Survey.Sound.initial hsize).turns ht).balanced hdone
    exact absurd hrefused (Survey.Turns.agrees hb hsize hs).2
  · exact herror

section Replaced

variable (hsize : code'.entries.size = code.entries.size) (hplaces : code'.places = code.places)
include hsize hplaces

theorem successors_congr (i : Nat) (instruction : Instruction) :
    code'.successors i instruction = code.successors i instruction := by
  have hfollowing : code'.following i = code.following i := by
    simp only [following, hsize]
  have hdestination (label : Label) : code'.destination label = code.destination label := by
    simp only [destination, place?, hsize, hplaces]
  cases instruction with
  | jump op label =>
    cases op with
    | always => simp only [successors, hdestination]
    | when relation => simp only [successors, hdestination, hfollowing]
  | simple op => simp only [successors, hfollowing]
  | _ => simp only [successors, hfollowing]

theorem visit_congr {s : Survey} {i : Nat}
    (hentry : ∀ {h : Nat}, s.heights.at? i = some h → code'.entries[i]? = code.entries[i]?) :
    s.visit code' i = s.visit code i := by
  cases hh : s.heights.at? i with
  | none => rw [Survey.visit_of_unknown (.inr hh), Survey.visit_of_unknown (.inr hh)]
  | some h =>
    have hsame := hentry hh
    cases hi : code.entries[i]? with
    | none =>
      rw [Survey.visit_of_unknown (.inl hi), Survey.visit_of_unknown (.inl (hsame.trans hi))]
    | some instruction =>
      rw [Survey.visit_of_known hi hh, Survey.visit_of_known (hsame.trans hi) hh]
      simp only [departure, successors_congr hsize hplaces]

theorem explore_congr (hentries : ∀ i, code.Reachable i → code'.entries[i]? = code.entries[i]?)
    (s : Survey) (hs : s.Sound code) :
    Heights.explore code' s.heights s.deepest s.work =
      Heights.explore code s.heights s.deepest s.work := by
  induction s using Survey.turn_induction code with
  | step s ih =>
    cases hwork : s.work with
    | nil => rw [Heights.explore, Heights.explore]
    | cons i rest =>
      have hloop := Survey.explore_cons code { s with work := rest } i
      have hloop' := Survey.explore_cons code' { s with work := rest } i
      have hvisit : Survey.visit code' { s with work := rest } i =
          Survey.visit code { s with work := rest } i :=
        visit_congr hsize hplaces fun hh => hentries i (hs.reachable hh)
      dsimp only at hloop hloop'
      rw [hloop, hloop', hvisit]
      cases ht : Survey.visit code { s with work := rest } i with
      | error e => rfl
      | ok t =>
        have hturn : Survey.Turn code s t := ⟨i, rest, by rw [hwork], ht⟩
        exact ih t hturn (hs.turn hturn)

end Replaced

/-- The analysis succeeds exactly if there are heights that fit together. It then finds them at the
entries that can be reached and nowhere else, and the greatest height that one of these leaves. Its
loop ends after at most one turn for each entry, whichever entry of the work is taken in each turn,
and always with the same outcome. Entries that cannot be reached have no influence. -/
theorem stackHeights_exact (hsize : 0 < code.entries.size) :
    ((∃ found deepest, code.stackHeights = .ok (found, deepest)) ↔
      ∃ heights, code.Balanced heights) ∧
    (∀ found deepest heights, code.stackHeights = .ok (found, deepest) → code.Balanced heights →
      (∀ i h, found.at? i = some h ↔ code.Reachable i ∧ heights i = h) ∧
        IsGreatest (insert 0 (code.departures heights)) deepest) ∧
    (∀ n s, Survey.Turns code (.initial code) n s → n ≤ code.entries.size ∧
      (s.work = [] → code.stackHeights = .ok (s.heights, s.deepest)) ∧
      (s.Refused code → ∃ e, code.stackHeights = .error e) ∧
      (s.work = [] ∨ s.Refused code ∨ ∃ t, s.Turn code t)) ∧
    ∀ entries : Array Instruction, entries.size = code.entries.size →
      (∀ i, code.Reachable i → entries[i]? = code.entries[i]?) →
        stackHeights { code with entries } = code.stackHeights := by
  refine ⟨⟨?_, ?_⟩, ?_, ?_, ?_⟩
  · rintro ⟨found, deepest, h⟩
    obtain ⟨n, hturns⟩ := turns_of_stackHeights h
    exact ⟨_, ((Survey.Sound.initial hsize).turns hturns).balanced rfl⟩
  · rintro ⟨heights, hb⟩
    obtain ⟨n, t, ht, ⟨-, hok⟩ | ⟨hrefused, -⟩⟩ := Survey.explore_turns code (.initial code)
    · exact ⟨t.heights, t.deepest, hok⟩
    · exact absurd hrefused (Survey.Turns.agrees hb hsize ht).2
  · intro found deepest heights h hb
    obtain ⟨n, hturns⟩ := turns_of_stackHeights h
    exact ⟨hturns.at?_iff hsize rfl hb, hturns.isGreatest hsize rfl hb⟩
  · intro n s hs
    have hweight := hs.weight_eq
    rw [Survey.weight_initial hsize] at hweight
    refine ⟨by omega, stackHeights_of_finished hsize hs, stackHeights_of_refused hsize hs, ?_⟩
    cases hwork : s.work with
    | nil => exact .inl rfl
    | cons i rest =>
      have hperm : s.work.Perm (i :: rest) := by rw [hwork]
      cases ht : Survey.visit code { s with work := rest } i with
      | error e => exact .inr (.inl ⟨i, rest, e, hperm, ht⟩)
      | ok t => exact .inr (.inr ⟨t, i, rest, hperm, ht⟩)
  · intro entries hentries hsame
    have hcongr := @explore_congr code { code with entries } hentries rfl hsame
      (.initial code) (.initial hsize)
    simp only [stackHeights, hentries]
    exact hcongr

/-- Compares until the numbers differ. The last entry would take a word from the empty stack, but
nothing leads there. -/
def deadPop : Code where
  entries := #[.mark ⟨0, 0⟩, .pushInt 1, .pushInt 2, .jump (.when .eq) ⟨0, 0⟩,
    .simple Opcode.returnVoid.byte, .simple Opcode.pop.byte]
  places := #[some 0]

theorem stackHeights_exact_deadPop :
    0 < deadPop.entries.size ∧ ∃ heights, deadPop.Balanced heights ∧ heights 3 = 2 ∧
      ¬ deadPop.Reachable 5 ∧ IsGreatest (insert 0 (deadPop.departures heights)) 2 := by
  have hsize : 0 < deadPop.entries.size := by decide
  have hresult : resultIs (· == (#[some 0, some 0, some 1, some 2, some 0, none], 2))
      deadPop.stackHeights = true := by cbv
  obtain ⟨⟨found, deepest⟩, hok, hfound⟩ := of_resultIs hresult
  cases beq_iff_eq.mp hfound
  obtain ⟨hexists, hknown, -⟩ := stackHeights_exact hsize
  obtain ⟨heights, hb⟩ := hexists.mp ⟨_, _, hok⟩
  obtain ⟨hat, hgreatest⟩ := hknown _ _ heights hok hb
  refine ⟨hsize, heights, hb, ((hat 3 2).mp rfl).2, fun hr => ?_, hgreatest⟩
  cases (hat 5 (heights 5)).mpr ⟨hr, rfl⟩

end Code

end ClassForge
