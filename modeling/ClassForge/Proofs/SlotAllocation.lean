import ClassForge.Proofs.EmittedProgram
import Mathlib.Data.List.DropRight

/-! Slots over runs of calls on a table of variables. Since the last reset, the calls that succeed in
taking a slot have been given 0, 1, 2 and so on, and a name leads to the variable declared under it. -/

namespace ClassForge.SymbolTable

/-- A call on a table. -/
inductive Call where
  | declare (name type : Bytes)
  | lookup (name : Bytes)
  | reserve
  | list
  | reset

inductive Answer where
  | symbol (v : Variable)
  | slot (n : Nat)
  | listed (vs : List Variable)
  | done
  | refused (e : ProgramError)

def Call.isReset : Call → Bool
  | reset => true
  | _ => false

def Call.perform (table : SymbolTable) : Call → Answer × SymbolTable
  | declare name type =>
    match table.declare name type with
    | .ok v table => (.symbol v, table)
    | .error e table => (.refused e, table)
  | lookup name =>
    match table.lookup name with
    | .ok v => (.symbol v, table)
    | .error e => (.refused e, table)
  | reserve => (.slot table.reserve.1, table.reserve.2)
  | list => (.listed table.declared.toList, table)
  | reset => (.done, {})

/-- A call with its answer. -/
structure Entry where
  call : Call
  answer : Answer

namespace Entry

/-- The variable that a declaration made. -/
def declared? : Entry → Option Variable
  | ⟨.declare _ _, .symbol v⟩ => some v
  | _ => none

/-- The slot that a declaration or a reservation was given. -/
def slot? : Entry → Option Nat
  | ⟨.declare _ _, .symbol v⟩ => some v.slot
  | ⟨.reserve, .slot n⟩ => some n
  | _ => none

/-- A declaration of the name that made the variable. -/
def Declares (name : Bytes) (v : Variable) (e : Entry) : Prop :=
  ∃ type, e = ⟨.declare name type, .symbol v⟩

variable {e : Entry} {v : Variable}

theorem slot?_of_declared? (h : e.declared? = some v) : e.slot? = some v.slot := by
  obtain ⟨call, answer⟩ := e
  cases call <;> cases answer <;> cases h
  rfl

theorem declared?_eq_some_iff : e.declared? = some v ↔ ∃ name, e.Declares name v := by
  constructor
  · intro h
    obtain ⟨call, answer⟩ := e
    cases call <;> cases answer <;> cases h
    exact ⟨_, _, rfl⟩
  · rintro ⟨name, type, rfl⟩
    rfl

end Entry

/-- The calls on a new table so far, and the table they led to. -/
structure Session where
  log : List Entry := []
  table : SymbolTable := {}

namespace Session

def call (s : Session) (c : Call) : Session where
  log := s.log ++ [⟨c, (c.perform s.table).1⟩]
  table := (c.perform s.table).2

def run (s : Session) (calls : List Call) : Session :=
  calls.foldl call s

/-- The calls behind the last reset. -/
def recent (s : Session) : List Entry :=
  s.log.rtakeWhile fun e => !e.call.isReset

theorem recent_call (s : Session) {c : Call} (h : c.isReset = false) :
    (s.call c).recent = s.recent ++ [⟨c, (c.perform s.table).1⟩] := by
  simp [recent, call, h]

theorem recent_reset (s : Session) : (s.call .reset).recent = [] := by
  simp [recent, call, Call.isReset]

end Session

/-- What each call gives once is given by one call. -/
theorem index_eq_of_nodup {β : Type} {f : Entry → Option β} {recent : List Entry} {k k' : Nat}
    {e e' : Entry} {b : β} (h : (recent.filterMap f).Nodup) (he : recent[k]? = some e)
    (he' : recent[k']? = some e') (hb : f e = some b) (hb' : f e' = some b) : k = k' := by
  rw [List.nodup_iff_pairwise_ne, List.pairwise_filterMap, List.pairwise_iff_getElem] at h
  obtain ⟨hk, rfl⟩ := List.getElem?_eq_some_iff.mp he
  obtain ⟨hk', rfl⟩ := List.getElem?_eq_some_iff.mp he'
  by_contra hne
  rcases Nat.lt_or_gt_of_ne hne with hlt | hlt
  · exact h k k' hk hk' hlt b hb b hb' rfl
  · exact h k' k hk' hk hlt b hb' b hb rfl

/-- The table is what the calls since its last reset make of an empty one. -/
structure Accounts (table : SymbolTable) (recent : List Entry) : Prop where
  slots : recent.filterMap Entry.slot? = List.range table.nextSlot
  declared : recent.filterMap Entry.declared? = table.declared.toList
  named : ∀ {name : Bytes} {type : Bytes} {v : Variable},
    ⟨.declare name type, .symbol v⟩ ∈ recent → v.name = name ∧ VarType.ofName? type = some v.type
  found : ∀ {name : Bytes} {v : Variable},
    table.byName[name]? = some v ↔ v ∈ table.declared ∧ v.name = name
  distinct : (table.declared.toList.map Variable.name).Nodup

theorem eq_of_declare_eq_error {table table' : SymbolTable} {name type : Bytes}
    {cause : ProgramError} (h : table.declare name type = .error cause table') : table' = table := by
  simp only [declare] at h
  split at h
  · cases h
    rfl
  · split at h
    · cases h
      rfl
    · cases h

namespace Accounts

variable {table table' : SymbolTable} {recent : List Entry} {e : Entry} {name type : Bytes}
  {v : Variable}

theorem empty : Accounts {} [] := by
  constructor <;> simp

/-- A call that takes no slot leaves the account of the table as it is. -/
theorem idle (h : Accounts table recent) (he : e.slot? = none) : Accounts table (recent ++ [e]) := by
  have hnone : e.declared? = none := by
    refine Option.eq_none_iff_forall_ne_some.mpr fun v hv => ?_
    rw [Entry.slot?_of_declared? hv] at he
    cases he
  refine ⟨?_, ?_, fun {name type v} hmem => ?_, h.found, h.distinct⟩
  · simp [List.filterMap_append, he, h.slots]
  · simp [List.filterMap_append, hnone, h.declared]
  · rcases List.mem_append.mp hmem with hmem | hmem
    · exact h.named hmem
    · cases List.mem_singleton.mp hmem
      cases he

theorem not_mem_names (h : Accounts table recent) (hnew : table.byName[name]? = none) :
    ∀ v ∈ table.declared, v.name ≠ name := by
  intro v hv hname
  rw [h.found.mpr ⟨hv, hname⟩] at hnew
  cases hnew

theorem declare (h : Accounts table recent) (hv : table.declare name type = .ok v table') :
    Accounts table' (recent ++ [⟨.declare name type, .symbol v⟩]) := by
  obtain ⟨hnew, hname, htype, hslot, rfl⟩ := declare_eq_ok hv
  have hfresh := h.not_mem_names hnew
  refine ⟨?_, ?_, fun {name' type' v'} hmem => ?_, fun {name' v'} => ?_, ?_⟩
  · simp [List.filterMap_append, Entry.slot?, h.slots, hslot, List.range_succ]
  · simp [List.filterMap_append, Entry.declared?, h.declared]
  · rcases List.mem_append.mp hmem with hmem | hmem
    · exact h.named hmem
    · cases List.mem_singleton.mp hmem
      exact ⟨hname, htype⟩
  · rw [Std.HashMap.getElem?_insert, Array.mem_push]
    by_cases heq : name = name'
    -- Of the variables with the new name there is only the new one.
    · subst heq
      simp only [beq_self_eq_true, if_true, Option.some.injEq]
      constructor
      · rintro rfl
        exact ⟨.inr rfl, hname⟩
      · rintro ⟨hv' | rfl, hname'⟩
        · exact absurd hname' (hfresh v' hv')
        · rfl
    · rw [if_neg (by simpa using heq), h.found]
      constructor
      · rintro ⟨hv', hname'⟩
        exact ⟨.inl hv', hname'⟩
      · rintro ⟨hv' | rfl, hname'⟩
        · exact ⟨hv', hname'⟩
        · exact absurd (hname.symm.trans hname') heq
  · have hname' : v.name ∉ table.declared.toList.map Variable.name := by
      rw [List.mem_map]
      rintro ⟨w, hw, heq⟩
      exact hfresh w (Array.mem_toList_iff.mp hw) (heq.trans hname)
    rw [Array.toList_push, List.map_append, List.map_singleton, List.nodup_append_comm]
    exact List.nodup_cons.mpr ⟨hname', h.distinct⟩

theorem reserve (h : Accounts table recent) :
    Accounts table.reserve.2 (recent ++ [⟨.reserve, .slot table.reserve.1⟩]) := by
  refine ⟨?_, ?_, fun {name type v} hmem => ?_, h.found, h.distinct⟩
  · simp [List.filterMap_append, Entry.slot?, h.slots, SymbolTable.reserve, List.range_succ]
  · simp [List.filterMap_append, Entry.declared?, h.declared, SymbolTable.reserve]
  · rcases List.mem_append.mp hmem with hmem | hmem
    · exact h.named hmem
    · cases List.mem_singleton.mp hmem

theorem call {s : Session} (h : Accounts s.table s.recent) (c : Call) :
    Accounts (s.call c).table (s.call c).recent := by
  cases c with
  | declare name type =>
    rw [s.recent_call rfl]
    simp only [Session.call, Call.perform]
    cases hv : s.table.declare name type with
    | ok v table => exact h.declare hv
    | error e table =>
      obtain rfl := eq_of_declare_eq_error hv
      exact h.idle rfl
  | lookup name =>
    rw [s.recent_call rfl]
    simp only [Session.call, Call.perform]
    cases hv : s.table.lookup name with
    | ok v => exact h.idle rfl
    | error e => exact h.idle rfl
  | reserve =>
    rw [s.recent_call rfl]
    exact h.reserve
  | list =>
    rw [s.recent_call rfl]
    exact h.idle rfl
  | reset =>
    rw [s.recent_reset]
    exact .empty

theorem run {s : Session} (h : Accounts s.table s.recent) (calls : List Call) :
    Accounts (s.run calls).table (s.run calls).recent := by
  induction calls generalizing s with
  | nil => exact h
  | cons c rest ih => exact ih (h.call c)

theorem length_slots (h : Accounts table recent) :
    (recent.filterMap Entry.slot?).length = table.nextSlot := by
  rw [h.slots, List.length_range]

theorem pairwise_slots (h : Accounts table recent) :
    (table.declared.toList.map Variable.slot).Pairwise (· < ·) := by
  have hall : (recent.filterMap Entry.slot?).Pairwise (· < ·) := by
    rw [h.slots]
    exact List.pairwise_lt_range
  rw [← h.declared, List.pairwise_map, List.pairwise_filterMap]
  refine (List.pairwise_filterMap.mp hall).imp fun {e e'} hlt v hv v' hv' => ?_
  exact hlt _ (Entry.slot?_of_declared? hv) _ (Entry.slot?_of_declared? hv')

theorem mem_declared_iff (h : Accounts table recent) :
    v ∈ table.declared ∧ v.name = name ↔ ∃ e ∈ recent, e.Declares name v := by
  rw [← Array.mem_toList_iff, ← h.declared, List.mem_filterMap]
  constructor
  · rintro ⟨⟨e, he, hv⟩, rfl⟩
    obtain ⟨name, type, rfl⟩ := Entry.declared?_eq_some_iff.mp hv
    exact ⟨_, he, type, by rw [(h.named he).1]⟩
  · rintro ⟨_, he, type, rfl⟩
    exact ⟨⟨_, he, rfl⟩, (h.named he).1⟩

theorem lookup_eq_ok_iff (h : Accounts table recent) :
    table.lookup name = .ok v ↔ ∃ e ∈ recent, e.Declares name v := by
  rw [lookup_eq_ok, h.found, h.mem_declared_iff]

theorem index_of_name (h : Accounts table recent) {k k' : Nat} {e' : Entry} {v' : Variable}
    (he : recent[k]? = some e) (he' : recent[k']? = some e') (hd : e.Declares name v)
    (hd' : e'.Declares name v') : k = k' := by
  have hnodup : (recent.filterMap fun e => e.declared?.map Variable.name).Nodup := by
    rw [← List.map_filterMap, h.declared]
    exact h.distinct
  have hname {x : Entry} {w : Variable} (hx : x ∈ recent) (hd : x.Declares name w) :
      x.declared?.map Variable.name = some name := by
    obtain ⟨type, rfl⟩ := hd
    exact congrArg some (h.named hx).1
  exact index_eq_of_nodup hnodup he he' (hname (List.mem_of_getElem? he) hd)
    (hname (List.mem_of_getElem? he') hd')

theorem index_of_slot (h : Accounts table recent) {k k' n : Nat} {e' : Entry}
    (he : recent[k]? = some e) (he' : recent[k']? = some e') (hn : e.slot? = some n)
    (hn' : e'.slot? = some n) : k = k' := by
  have hnodup : (recent.filterMap Entry.slot?).Nodup := by
    rw [h.slots]
    exact List.nodup_range
  exact index_eq_of_nodup hnodup he he' hn hn'

theorem slot_ne_of_reserved (h : Accounts table recent) {n : Nat}
    (hn : ⟨.reserve, .slot n⟩ ∈ recent) (hv : table.lookup name = .ok v) : v.slot ≠ n := by
  rintro rfl
  obtain ⟨_, he, type, rfl⟩ := h.lookup_eq_ok_iff.mp hv
  obtain ⟨k, hk⟩ := List.mem_iff_getElem?.mp hn
  obtain ⟨k', hk'⟩ := List.mem_iff_getElem?.mp he
  cases h.index_of_slot hk hk' rfl rfl
  rw [hk] at hk'
  cases hk'

theorem lookup_eq_error_iff (h : Accounts table recent) {cause : ProgramError} :
    table.lookup name = .error cause ↔
      cause = .undeclared name ∧ ∀ v, ∀ e ∈ recent, ¬ e.Declares name v := by
  have hiff : table.byName[name]? = none ↔ ∀ v, ∀ e ∈ recent, ¬ e.Declares name v := by
    simp only [Option.eq_none_iff_forall_ne_some, ne_eq, h.found, h.mem_declared_iff, not_exists,
      not_and]
  rw [← hiff, SymbolTable.lookup]
  cases hname : table.byName[name]? with
  | none =>
    simp only [Except.error.injEq, and_true]
    exact eq_comm
  | some v => simp

/-- The type is looked at before the name. -/
theorem declare_eq_error_iff (h : Accounts table recent) {cause : ProgramError} :
    table.declare name type = .error cause table ↔
      VarType.ofName? type = none ∧ cause = .unsupportedType name type ∨
      (VarType.ofName? type).isSome ∧ cause = .duplicate name ∧
        ∃ v, ∃ e ∈ recent, e.Declares name v := by
  have hiff : table.byName.contains name = true ↔ ∃ v, ∃ e ∈ recent, e.Declares name v := by
    simp only [Std.HashMap.contains_eq_isSome_getElem?, Option.isSome_iff_exists, h.found,
      h.mem_declared_iff]
  rw [← hiff, SymbolTable.declare]
  cases htype : VarType.ofName? type with
  | none =>
    simp only [EStateM.Result.error.injEq, and_true, true_and, Option.isSome_none,
      Bool.false_eq_true, false_and, or_false]
    exact eq_comm
  | some t =>
    by_cases hname : table.byName.contains name = true
    · simp only [hname, if_true, EStateM.Result.error.injEq, reduceCtorEq, false_and,
        Option.isSome_some, and_true, true_and, false_or]
      exact eq_comm
    · simp [hname]

end Accounts

/-- After any calls, failed ones included, the slots taken since the last reset are `0, …, k - 1` in
the order of the calls that took them. A name leads to the variable of its only declaration, whose slot
is not one of those reserved. The variables are listed by rising slots, and calls that fail or only ask
change nothing. -/
theorem slots_follow_calls (calls : List Call) :
    let s := Session.run {} calls
    let slots := s.recent.filterMap Entry.slot?
    slots = List.range slots.length ∧
    (∀ name type v, ⟨.declare name type, .symbol v⟩ ∈ s.recent →
      v.name = name ∧ VarType.ofName? type = some v.type) ∧
    (∀ name v, s.table.lookup name = .ok v ↔ ∃ (k : Nat) (e : Entry),
      s.recent[k]? = some e ∧ e.Declares name v ∧
        ∀ (k' : Nat) e' v', s.recent[k']? = some e' → e'.Declares name v' → k' = k) ∧
    (∀ name cause, s.table.lookup name = .error cause ↔
      cause = .undeclared name ∧ ∀ v, ∀ e ∈ s.recent, ¬ e.Declares name v) ∧
    (∀ name v n, s.table.lookup name = .ok v → ⟨.reserve, .slot n⟩ ∈ s.recent → v.slot ≠ n) ∧
    (Call.perform s.table .list).1 = .listed (s.recent.filterMap Entry.declared?) ∧
    ((s.recent.filterMap Entry.declared?).map Variable.slot).Pairwise (· < ·) ∧
    s.table.maxLocals = max 1 slots.length ∧
    (∀ name type cause, s.table.declare name type = .error cause s.table ↔
      VarType.ofName? type = none ∧ cause = .unsupportedType name type ∨
      (VarType.ofName? type).isSome ∧ cause = .duplicate name ∧
        ∃ v, ∃ e ∈ s.recent, e.Declares name v) ∧
    (∀ name type cause table, s.table.declare name type = .error cause table → table = s.table) ∧
    (∀ name type cause, (Call.perform s.table (.declare name type)).1 = .refused cause →
      (Call.perform s.table (.declare name type)).2 = s.table) ∧
    (∀ name, (Call.perform s.table (.lookup name)).2 = s.table) ∧
    (Call.perform s.table .list).2 = s.table := by
  intro s slots
  have h : Accounts s.table s.recent := Accounts.empty.run calls
  have hlength : slots.length = s.table.nextSlot := h.length_slots
  refine ⟨?_, fun name type v => h.named, fun name v => ?_, fun name cause => h.lookup_eq_error_iff,
    fun name v n hv hn => h.slot_ne_of_reserved hn hv, ?_, ?_, ?_,
    fun name type cause => h.declare_eq_error_iff,
    fun name type cause table hv => eq_of_declare_eq_error hv, fun name type cause hrefused => ?_,
    fun name => ?_, rfl⟩
  · rw [hlength]
    exact h.slots
  · rw [h.lookup_eq_ok_iff]
    constructor
    · rintro ⟨e, he, hd⟩
      obtain ⟨k, hk⟩ := List.mem_iff_getElem?.mp he
      exact ⟨k, e, hk, hd, fun k' e' v' hk' hd' => h.index_of_name hk' hk hd' hd⟩
    · rintro ⟨k, e, hk, hd, -⟩
      exact ⟨e, List.mem_of_getElem? hk, hd⟩
  · rw [h.declared]
    rfl
  · rw [h.declared]
    exact h.pairwise_slots
  · rw [hlength]
    rfl
  · simp only [Call.perform] at hrefused ⊢
    cases hv : s.table.declare name type with
    | ok v table =>
      rw [hv] at hrefused
      cases hrefused
    | error e table => exact eq_of_declare_eq_error hv
  · simp only [Call.perform]
    cases s.table.lookup name with
    | ok v => rfl
    | error e => rfl

end ClassForge.SymbolTable
