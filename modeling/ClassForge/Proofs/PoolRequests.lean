import ClassForge.Proofs.WriterRun

/-! Requests to a constant pool, one after another. A request first makes those for the constants
that its entry refers to, so it can fail half-way; what has been interned by then stays. -/

namespace ClassForge

/-- The indexes that an entry holds, each with the tag of the entry it has to point to. -/
def PoolEntry.references : PoolEntry → List (Nat × UInt8)
  | utf8 _ | integer _ => []
  | classRef i | stringRef i => [(i, 1)]
  | nameAndType i j => [(i, 1), (j, 1)]
  | fieldRef i j | methodRef i j => [(i, 7), (j, 12)]

namespace ConstantPool

namespace Request

def constant : Request → Constant
  | utf8 text => .utf8 text
  | integer value => .integer value
  | stringRef text => .stringRef text
  | classRef name => .classRef name
  | nameAndType name descriptor => .nameAndType name descriptor
  | fieldRef m => .fieldRef m
  | methodRef m => .methodRef m

def key (r : Request) : Bytes :=
  r.constant.key

/-- The requests for what the entry of a request refers to. -/
def parts : Request → List Request
  | utf8 _ | integer _ => []
  | stringRef text => [utf8 text]
  | classRef name => [utf8 name]
  | nameAndType name descriptor => [utf8 name, utf8 descriptor]
  | fieldRef m | methodRef m => [classRef m.owner, nameAndType m.name m.descriptor]

/-- All constants that a request interns, in their order; its own comes last. -/
def components : Request → List Request
  | utf8 text => [utf8 text]
  | integer value => [integer value]
  | stringRef text => [utf8 text, stringRef text]
  | classRef name => [utf8 name, classRef name]
  | nameAndType name descriptor => [utf8 name, utf8 descriptor, nameAndType name descriptor]
  | fieldRef m => [utf8 m.owner, classRef m.owner, utf8 m.name, utf8 m.descriptor,
      nameAndType m.name m.descriptor, fieldRef m]
  | methodRef m => [utf8 m.owner, classRef m.owner, utf8 m.name, utf8 m.descriptor,
      nameAndType m.name m.descriptor, methodRef m]

theorem components_eq (r : Request) : r.components = r.parts.flatMap components ++ [r] := by
  cases r <;> rfl

theorem induct {P : Request → Prop} (h : ∀ r, (∀ p ∈ r.parts, P p) → P r) (r : Request) : P r := by
  have hleaf (r : Request) (hr : r.parts = []) : P r := h r (by simp [hr])
  have htext (text : Bytes) : P (utf8 text) := hleaf _ rfl
  have hclass (name : Bytes) : P (classRef name) := h _ (by simp [parts, htext])
  have hpair (name descriptor : Bytes) : P (nameAndType name descriptor) :=
    h _ (by simp [parts, htext])
  cases r with
  | utf8 text => exact htext text
  | integer value => exact hleaf _ rfl
  | stringRef text => exact h _ (by simp [parts, htext])
  | classRef name => exact hclass name
  | nameAndType name descriptor => exact hpair name descriptor
  | fieldRef m => exact h _ (by simp [parts, hclass, hpair])
  | methodRef m => exact h _ (by simp [parts, hclass, hpair])

end Request

/-- The index of a constant that has been interned. -/
def indexOf (pool : ConstantPool) (r : Request) : Nat :=
  (pool.index[r.key]?).getD 0

namespace Request

/-- The entry of a request whose parts have been interned. -/
def entryIn (pool : ConstantPool) : Request → PoolEntry
  | utf8 text => .utf8 text
  | integer value => .integer value
  | stringRef text => .stringRef (pool.indexOf (utf8 text))
  | classRef name => .classRef (pool.indexOf (utf8 name))
  | nameAndType name descriptor =>
    .nameAndType (pool.indexOf (utf8 name)) (pool.indexOf (utf8 descriptor))
  | fieldRef m =>
    .fieldRef (pool.indexOf (classRef m.owner)) (pool.indexOf (nameAndType m.name m.descriptor))
  | methodRef m =>
    .methodRef (pool.indexOf (classRef m.owner)) (pool.indexOf (nameAndType m.name m.descriptor))

/-- The last step of a request, which gives its own constant an entry. -/
def internSelf : Request → Pooled Nat
  | utf8 text => ConstantPool.utf8 text
  | r => fun pool => intern r.key (r.entryIn pool) pool

def performAll : List Request → Pooled Unit
  | [] => pure ()
  | r :: rest => do
    let _ ← r.perform
    performAll rest

end Request

/-- A step after which every key has the index that it had. -/
def Retains {α : Type} (x : Pooled α) : Prop :=
  ∀ (pool : ConstantPool) (key : Bytes) (i : Nat), pool.index[key]? = some i →
    (stateAfter (x pool)).index[key]? = some i

theorem Retains.bind {α β : Type} {x : Pooled α} {f : α → Pooled β} (hx : Retains x)
    (hf : ∀ a, Retains (f a)) : Retains (x >>= f) := by
  intro pool key i hi
  have hfirst := hx pool key i hi
  cases hr : x pool with
  | error e pool' =>
    rw [hr] at hfirst
    rw [bind_eq_of_error hr]
    exact hfirst
  | ok a pool' =>
    rw [hr] at hfirst
    rw [bind_eq_of_ok hr]
    exact hf a pool' key i hfirst

theorem index_insert {pool : ConstantPool} {key key' : Bytes} {i j : Nat}
    (hnew : pool.index[key]? = none) (hi : pool.index[key']? = some i) :
    (pool.index.insert key j)[key']? = some i := by
  have hne : key ≠ key' := by
    rintro rfl
    rw [hnew] at hi
    cases hi
  rw [Std.HashMap.getElem?_insert, if_neg (by simpa using hne), hi]

theorem intern_retains (key : Bytes) (entry : PoolEntry) : Retains (intern key entry) := by
  intro pool key' i hi
  simp only [intern]
  cases hkey : pool.index[key]? with
  | some j => exact hi
  | none =>
    by_cases hfull : pool.count > 65534
    · simp only [hfull, if_true]
      exact hi
    · simp only [hfull, if_false]
      exact index_insert hkey hi

theorem utf8_retains (text : Bytes) : Retains (utf8 text) := by
  by_cases hl : (ModifiedUtf8.encode text).length > 65535
  · simp only [utf8, hl, if_true]
    exact fun _ _ _ hi => hi
  · simp only [utf8, hl, if_false]
    exact intern_retains _ _

theorem classRef_retains (name : Bytes) : Retains (classRef name) :=
  (utf8_retains name).bind fun _ => intern_retains _ _

theorem nameAndType_retains (name descriptor : Bytes) : Retains (nameAndType name descriptor) :=
  (utf8_retains name).bind fun _ => (utf8_retains descriptor).bind fun _ => intern_retains _ _

theorem Request.retains (r : Request) : Retains r.perform := by
  cases r with
  | utf8 text => exact utf8_retains text
  | integer value => exact intern_retains _ _
  | stringRef text => exact (utf8_retains text).bind fun _ => intern_retains _ _
  | classRef name => exact classRef_retains name
  | nameAndType name descriptor => exact nameAndType_retains name descriptor
  | fieldRef m =>
    exact (classRef_retains _).bind fun _ => (nameAndType_retains _ _).bind fun _ =>
      intern_retains _ _
  | methodRef m =>
    exact (classRef_retains _).bind fun _ => (nameAndType_retains _ _).bind fun _ =>
      intern_retains _ _

theorem index_of_intern {key : Bytes} {entry : PoolEntry} {pool pool' : ConstantPool} {i : Nat}
    (h : intern key entry pool = .ok i pool') : pool'.index[key]? = some i := by
  simp only [intern] at h
  split at h
  · next hkey =>
    cases h
    exact hkey
  · split at h
    · cases h
    · cases h
      simp

theorem index_of_utf8 {text : Bytes} {pool pool' : ConstantPool} {i : Nat}
    (h : utf8 text pool = .ok i pool') : pool'.index[(Request.utf8 text).key]? = some i := by
  simp only [utf8] at h
  split at h
  · cases h
  · exact index_of_intern h

theorem Request.index_of_perform {r : Request} {pool pool' : ConstantPool} {i : Nat}
    (h : r.perform pool = .ok i pool') : pool'.index[r.key]? = some i := by
  cases r with
  | utf8 text => exact index_of_utf8 h
  | integer value => exact index_of_intern h
  | stringRef text | classRef name =>
    obtain ⟨_, _, -, h⟩ := ok_of_bind_eq_ok h
    exact index_of_intern h
  | nameAndType _ _ | fieldRef m | methodRef m =>
    obtain ⟨_, _, -, h⟩ := ok_of_bind_eq_ok h
    obtain ⟨_, _, -, h⟩ := ok_of_bind_eq_ok h
    exact index_of_intern h

theorem Request.indexOf_of_perform {r : Request} {pool pool' : ConstantPool} {i : Nat}
    (h : r.perform pool = .ok i pool') : pool'.indexOf r = i := by
  rw [indexOf, index_of_perform h]
  rfl

namespace Request

variable {p q r : Request} {pool pool' : ConstantPool}

theorem bind_part {f : Nat → Pooled Nat} (hr : r.parts = [p])
    (hself : ∀ pool, r.internSelf pool = f (pool.indexOf p) pool) (pool : ConstantPool) :
    (p.perform >>= f) pool = (performAll r.parts >>= fun _ => r.internSelf) pool := by
  rw [hr]
  cases hp : p.perform pool with
  | error e pool' =>
    rw [bind_eq_of_error hp]
    exact (bind_eq_of_error (bind_eq_of_error hp _) _).symm
  | ok i pool' =>
    have hall : performAll [p] pool = .ok () pool' := bind_eq_of_ok hp _
    rw [bind_eq_of_ok hp, bind_eq_of_ok hall, hself, indexOf_of_perform hp]

theorem bind_parts {f : Nat → Nat → Pooled Nat} (hr : r.parts = [p, q])
    (hself : ∀ pool, r.internSelf pool = f (pool.indexOf p) (pool.indexOf q) pool)
    (pool : ConstantPool) :
    (do let i ← p.perform; let j ← q.perform; f i j : Pooled Nat) pool =
      (performAll r.parts >>= fun _ => r.internSelf) pool := by
  rw [hr]
  cases hp : p.perform pool with
  | error e pool' =>
    rw [bind_eq_of_error hp]
    exact (bind_eq_of_error (bind_eq_of_error hp _) _).symm
  | ok i pool₁ =>
    rw [bind_eq_of_ok hp]
    cases hq : q.perform pool₁ with
    | error e pool' =>
      have hall : performAll [p, q] pool = .error e pool' :=
        (bind_eq_of_ok hp _).trans (bind_eq_of_error hq _)
      rw [bind_eq_of_error hq, bind_eq_of_error hall]
    | ok j pool₂ =>
      have hall : performAll [p, q] pool = .ok () pool₂ :=
        (bind_eq_of_ok hp _).trans (bind_eq_of_ok hq _)
      have hfirst : pool₂.indexOf p = i := by
        have hkept := q.retains _ _ _ (index_of_perform hp)
        rw [hq] at hkept
        rw [indexOf, show pool₂.index[p.key]? = some i from hkept]
        rfl
      rw [bind_eq_of_ok hq, bind_eq_of_ok hall, hself, hfirst, indexOf_of_perform hq]

/-- A request performs those for its parts and then gives its own constant an entry. -/
theorem perform_eq (r : Request) (pool : ConstantPool) :
    r.perform pool = (performAll r.parts >>= fun _ => r.internSelf) pool := by
  cases r with
  | utf8 text => rfl
  | integer value => rfl
  | stringRef text => exact bind_part (p := .utf8 text) rfl (fun _ => rfl) pool
  | classRef name => exact bind_part (p := .utf8 name) rfl (fun _ => rfl) pool
  | nameAndType name descriptor =>
    exact bind_parts (p := .utf8 name) (q := .utf8 descriptor) rfl (fun _ => rfl) pool
  | fieldRef m =>
    exact bind_parts (p := .classRef m.owner) (q := .nameAndType m.name m.descriptor) rfl
      (fun _ => rfl) pool
  | methodRef m =>
    exact bind_parts (p := .classRef m.owner) (q := .nameAndType m.name m.descriptor) rfl
      (fun _ => rfl) pool

end Request

variable {r : Request} {rs rs' : List Request} {pool pool' pool'' : ConstantPool} {e : PoolError}

/-- The pool with a new entry for a request. -/
def add (pool : ConstantPool) (r : Request) : ConstantPool :=
  ⟨pool.entries.push (r.entryIn pool), pool.index.insert r.key pool.count⟩

/-- What keeps a pool from giving a constant an entry. -/
def Refuses (pool : ConstantPool) (r : Request) (e : PoolError) : Prop :=
  (∃ text, r = .utf8 text ∧ e = .tooLong text ∧ 65535 < (ModifiedUtf8.encode text).length) ∨
    e = .overflow r.key ∧ pool.count = 65535

/-- References point back. -/
def Grounded (pool : ConstantPool) : Prop :=
  ∀ i entry, entryAt? pool.entries i = some entry → ∀ ref ∈ entry.references, ref.1 < i

/-- What the entry of a request refers to has been interned. -/
def HasParts (pool : ConstantPool) (r : Request) : Prop :=
  ∀ p ∈ r.parts, ∃ i, pool.index[p.key]? = some i

theorem Valid.length_le_of_index (hv : pool.Valid) {text : Bytes} {i : Nat}
    (hi : pool.index[(Request.utf8 text).key]? = some i) :
    (ModifiedUtf8.encode text).length ≤ 65535 := by
  obtain ⟨c, hd, hk⟩ := hv.indexed hi
  have hc : c = .utf8 text := Constant.eq_utf8_of_key hk
  subst hc
  exact hv.short (textAt_eq_ok.mp hd.textAt)

theorem Request.internSelf_eq (pool : ConstantPool)
    (hr : ∀ text, r = .utf8 text → (ModifiedUtf8.encode text).length ≤ 65535) :
    r.internSelf pool = intern r.key (r.entryIn pool) pool := by
  cases r with
  | utf8 text =>
    have hshort : ¬ (ModifiedUtf8.encode text).length > 65535 := Nat.not_lt.mpr (hr text rfl)
    change ConstantPool.utf8 text pool = _
    simp only [ConstantPool.utf8, hshort, if_false]
    rfl
  | _ => rfl

theorem Request.internSelf_of_index (hv : pool.Valid) {i : Nat}
    (hi : pool.index[r.key]? = some i) : r.internSelf pool = .ok i pool := by
  rw [internSelf_eq pool, intern, hi]
  rintro text rfl
  exact hv.length_le_of_index hi

theorem Request.internSelf_of_new (hv : pool.Valid) (hnew : pool.index[r.key]? = none) :
    r.internSelf pool = .ok pool.count (pool.add r) ∨
      ∃ e, pool.Refuses r e ∧ r.internSelf pool = .error e pool := by
  by_cases hlong : ∃ text, r = .utf8 text ∧ 65535 < (ModifiedUtf8.encode text).length
  · obtain ⟨text, rfl, hlt⟩ := hlong
    refine .inr ⟨_, .inl ⟨text, rfl, rfl, hlt⟩, ?_⟩
    have hlong : (ModifiedUtf8.encode text).length > 65535 := hlt
    change ConstantPool.utf8 text pool = _
    simp only [ConstantPool.utf8, hlong, if_true]
    rfl
  · have hself : r.internSelf pool = intern r.key (r.entryIn pool) pool := by
      refine internSelf_eq pool fun text hr => ?_
      by_contra hlt
      exact hlong ⟨text, hr, by omega⟩
    rw [hself, intern, hnew]
    by_cases hfull : pool.count > 65534
    · have hbound := hv.bounded
      exact .inr ⟨_, .inr ⟨rfl, by omega⟩, by simp only [hfull, if_true]⟩
    · exact .inl (by simp only [hfull, if_false, add])

theorem Request.references_entryIn {ref : Nat × UInt8}
    (h : ref ∈ (r.entryIn pool).references) : ∃ p ∈ r.parts, ref.1 = pool.indexOf p := by
  cases r <;> simp only [entryIn, PoolEntry.references, List.mem_cons, List.not_mem_nil, or_false,
    parts, exists_eq_or_imp, exists_eq_left] at h ⊢
  case stringRef text | classRef name => rw [h]
  case nameAndType | fieldRef | methodRef => rcases h with rfl | rfl <;> simp

theorem Valid.indexOf_lt (hv : pool.Valid) (hi : ∃ i, pool.index[r.key]? = some i) :
    pool.indexOf r < pool.count := by
  obtain ⟨i, hi⟩ := hi
  obtain ⟨c, hd, -⟩ := hv.indexed hi
  rw [indexOf, hi]
  exact hd.lt_count.2

theorem Grounded.add (hg : pool.Grounded) (hv : pool.Valid)
    (hparts : pool.HasParts r) : (pool.add r).Grounded := by
  intro i entry hi ref href
  rcases entryAt?_push hi with hold | ⟨rfl, rfl⟩
  · exact hg i entry hold ref href
  · obtain ⟨p, hp, heq⟩ := Request.references_entryIn href
    rw [heq]
    exact hv.indexOf_lt (hparts p hp)

theorem Request.entryIn_eq (hparts : pool.HasParts r)
    (hkept : ∀ {key : Bytes} {i : Nat}, pool.index[key]? = some i → pool'.index[key]? = some i) :
    r.entryIn pool' = r.entryIn pool := by
  have hindex (p : Request) (hp : p ∈ r.parts) : pool'.indexOf p = pool.indexOf p := by
    obtain ⟨i, hi⟩ := hparts p hp
    rw [indexOf, indexOf, hi, hkept hi]
  cases r with
  | utf8 text => rfl
  | integer value => rfl
  | stringRef text => simp only [entryIn, hindex (.utf8 text) (by simp [parts])]
  | classRef name => simp only [entryIn, hindex (.utf8 name) (by simp [parts])]
  | nameAndType name descriptor =>
    simp only [entryIn, hindex (.utf8 name) (by simp [parts]),
      hindex (.utf8 descriptor) (by simp [parts])]
  | fieldRef m | methodRef m =>
    simp only [entryIn, hindex (.classRef m.owner) (by simp [parts]),
      hindex (.nameAndType m.name m.descriptor) (by simp [parts])]

/-- The requests have been interned: the keys that there were have kept their indexes, and the new
entries are those of some of the requests, in their order. -/
structure Interns (pool : ConstantPool) (rs : List Request) (pool' : ConstantPool) : Prop where
  retains : ∀ {key : Bytes} {i : Nat}, pool.index[key]? = some i → pool'.index[key]? = some i
  indexed : ∀ r ∈ rs, ∃ i, pool'.index[r.key]? = some i
  grounded : pool.Grounded → pool'.Grounded
  added : ∃ added : List Request, added.Sublist rs ∧ (∀ r ∈ added, pool'.HasParts r) ∧
    pool'.entries.toList = pool.entries.toList ++ added.map (Request.entryIn pool')

theorem Interns.nil (pool : ConstantPool) : pool.Interns [] pool :=
  ⟨id, by simp, id, [], List.Sublist.refl _, by simp, by simp⟩

theorem Interns.append (h : pool.Interns rs pool') (h' : pool'.Interns rs' pool'') :
    pool.Interns (rs ++ rs') pool'' := by
  obtain ⟨new, hnew, hparts, hentries⟩ := h.added
  obtain ⟨new', hnew', hparts', hentries'⟩ := h'.added
  have hsame : new.map (Request.entryIn pool'') = new.map (Request.entryIn pool') :=
    List.map_congr_left fun r hr => Request.entryIn_eq (hparts r hr) h'.retains
  refine ⟨fun hi => h'.retains (h.retains hi), fun r hr => ?_,
    fun hg => h'.grounded (h.grounded hg), new ++ new', hnew.append hnew', fun r hr p hp => ?_, ?_⟩
  · rcases List.mem_append.mp hr with hr | hr
    · obtain ⟨i, hi⟩ := h.indexed r hr
      exact ⟨i, h'.retains hi⟩
    · exact h'.indexed r hr
  · rcases List.mem_append.mp hr with hr | hr
    · obtain ⟨i, hi⟩ := hparts r hr p hp
      exact ⟨i, h'.retains hi⟩
    · exact hparts' r hr p hp
  · rw [hentries', hentries, List.map_append, hsame, List.append_assoc]

theorem Interns.found {i : Nat} (hi : pool.index[r.key]? = some i) : pool.Interns [r] pool :=
  ⟨id, by simpa using ⟨i, hi⟩, id, [], List.nil_sublist _, by simp, by simp⟩

theorem Interns.add (hv : pool.Valid) (hnew : pool.index[r.key]? = none)
    (hparts : pool.HasParts r) : pool.Interns [r] (pool.add r) := by
  have hkept {key : Bytes} {i : Nat} (hi : pool.index[key]? = some i) :
      (pool.add r).index[key]? = some i := index_insert hnew hi
  have hself : (pool.add r).index[r.key]? = some pool.count := by simp [ConstantPool.add]
  have hentry := Request.entryIn_eq hparts hkept
  refine ⟨hkept, by simpa using ⟨_, hself⟩, fun hg => hg.add hv hparts, [r], List.Sublist.refl _,
    ?_, ?_⟩
  · simp only [List.mem_singleton, forall_eq]
    intro p hp
    obtain ⟨i, hi⟩ := hparts p hp
    exact ⟨i, hkept hi⟩
  · rw [List.map_singleton, hentry]
    simp [ConstantPool.add]

/-- The requests have been interned up to one that is refused. -/
def Stops (pool : ConstantPool) (rs : List Request) (e : PoolError) (pool' : ConstantPool) : Prop :=
  ∃ before r after, rs = before ++ r :: after ∧ pool.Interns before pool' ∧
    pool'.index[r.key]? = none ∧ pool'.Refuses r e

def Outcome {α : Type} (pool : ConstantPool) (rs : List Request) :
    EStateM.Result PoolError ConstantPool α → Prop
  | .ok _ pool' => pool.Interns rs pool'
  | .error e pool' => pool.Stops rs e pool'

theorem Outcome.bind {α β : Type} {x : Pooled α} {f : α → Pooled β} (hx : pool.Outcome rs (x pool))
    (hf : ∀ a pool', x pool = .ok a pool' → pool'.Outcome rs' (f a pool')) :
    pool.Outcome (rs ++ rs') ((x >>= f) pool) := by
  cases hr : x pool with
  | error e pool' =>
    rw [hr] at hx
    rw [bind_eq_of_error hr]
    obtain ⟨before, r, after, rfl, hrest⟩ := hx
    exact ⟨before, r, after ++ rs', by simp, hrest⟩
  | ok a pool' =>
    have hf := hf a pool' hr
    rw [hr] at hx
    rw [bind_eq_of_ok hr]
    cases hr' : f a pool' with
    | ok b pool'' =>
      rw [hr'] at hf
      exact Interns.append hx hf
    | error e pool'' =>
      rw [hr'] at hf
      obtain ⟨before, r, after, rfl, hinterns, hrest⟩ := hf
      exact ⟨rs ++ before, r, after, by simp, Interns.append hx hinterns, hrest⟩

theorem Request.internSelf_outcome (hv : pool.Valid) (hparts : pool.HasParts r) :
    pool.Outcome [r] (r.internSelf pool) := by
  cases hkey : pool.index[r.key]? with
  | some i =>
    rw [internSelf_of_index hv hkey]
    exact Interns.found hkey
  | none =>
    rcases internSelf_of_new hv hkey with hok | ⟨e, hrefuses, herror⟩
    · rw [hok]
      exact Interns.add hv hkey hparts
    · rw [herror]
      exact ⟨[], r, [], rfl, .nil pool, hkey, hrefuses⟩

theorem Request.performAll_keeps (rs : List Request) :
    Keeps (fun _ => True) (performAll rs) fun _ _ => True := by
  induction rs with
  | nil => exact .pure fun _ _ => trivial
  | cons r rest ih => exact r.perform_keeps.bind fun _ => ih

theorem Request.performAll_outcome
    (h : ∀ r ∈ rs, ∀ pool : ConstantPool, pool.Valid → pool.Outcome r.components (r.perform pool))
    (hv : pool.Valid) : pool.Outcome (rs.flatMap components) (performAll rs pool) := by
  induction rs generalizing pool with
  | nil => exact Interns.nil pool
  | cons r rest ih =>
    refine (h r (by simp) pool hv).bind fun i pool' hr => ?_
    have hv' := (r.perform_keeps.of_ok hv trivial hr).1
    exact ih (fun q hq => h q (by simp [hq])) hv'

/-- A request interns its components in turn, up to one that the pool refuses. -/
theorem Request.perform_outcome (r : Request) (pool : ConstantPool) (hv : pool.Valid) :
    pool.Outcome r.components (r.perform pool) := by
  induction r using Request.induct generalizing pool with
  | h r ih =>
    rw [perform_eq, components_eq]
    -- The parts come first; when they all succeed, they have entries for the own one to refer to.
    have hparts := performAll_outcome ih hv
    refine hparts.bind fun u pool' hall => internSelf_outcome ?_ fun p hp => ?_
    · exact ((performAll_keeps r.parts).of_ok hv trivial hall).1
    · rw [hall] at hparts
      have hself : p ∈ p.components := by simp [components_eq p]
      exact Interns.indexed hparts p (List.mem_flatMap.mpr ⟨p, hp, hself⟩)

theorem Request.interns_of_perform (hv : pool.Valid) {i : Nat} (h : r.perform pool = .ok i pool') :
    pool.Interns r.components pool' := by
  have houtcome := r.perform_outcome pool hv
  rw [h] at houtcome
  exact houtcome

theorem Request.stops_of_perform (hv : pool.Valid) (h : r.perform pool = .error e pool') :
    pool.Stops r.components e pool' := by
  have houtcome := r.perform_outcome pool hv
  rw [h] at houtcome
  exact houtcome

/-- A request whose components have been interned is answered and adds nothing. -/
theorem Request.perform_of_indexed (r : Request) (hv : pool.Valid)
    (h : ∀ c ∈ r.components, ∃ i, pool.index[c.key]? = some i) :
    r.perform pool = .ok (pool.indexOf r) pool := by
  induction r using Request.induct with
  | h r ih =>
    rw [components_eq] at h
    have hall : ∀ rs : List Request, (∀ p ∈ rs, p ∈ r.parts) →
        performAll rs pool = .ok () pool := by
      intro rs hrs
      induction rs with
      | nil => rfl
      | cons p rest ihrs =>
        have hp := hrs p (by simp)
        have hfirst := ih p hp fun c hc =>
          h c (List.mem_append_left _ (List.mem_flatMap.mpr ⟨p, hp, hc⟩))
        exact (bind_eq_of_ok hfirst _).trans (ihrs fun q hq => hrs q (by simp [hq]))
    obtain ⟨i, hi⟩ := h r (by simp)
    rw [perform_eq, bind_eq_of_ok (hall r.parts fun _ hp => hp), internSelf_of_index hv hi, indexOf,
      hi]
    rfl

/-- Every reference of an entry points to an entry of the tag that is due there. -/
theorem Valid.target_of_references (hv : pool.Valid) {i : Nat} {entry : PoolEntry}
    {ref : Nat × UInt8} (hi : entryAt? pool.entries i = some entry)
    (href : ref ∈ entry.references) :
    ∃ target, entryAt? pool.entries ref.1 = some target ∧ target.tag = ref.2 := by
  have hpos : 0 < i := Nat.pos_of_ne_zero fun hzero => by simp [hzero, entryAt?] at hi
  have hle := entryAt?_lt hi
  obtain ⟨c, entry', hi', hdenote⟩ := hv.denotes i hpos (by simp only [count]; omega)
  rw [hi, Option.some.injEq] at hi'
  subst hi'
  have htext {j : Nat} {text : Bytes} (ht : textAt pool.entries j = .ok text) :
      ∃ target, entryAt? pool.entries j = some target ∧ target.tag = 1 :=
    ⟨_, textAt_eq_ok.mp ht, rfl⟩
  have hmember {owner pair : Nat} {m : Member} (hm : memberAt pool.entries i owner pair = .ok m)
      (href : ref ∈ [(owner, 7), (pair, 12)]) :
      ∃ target, entryAt? pool.entries ref.1 = some target ∧ target.tag = ref.2 := by
    obtain ⟨_, _, _, howner, hpair, -⟩ := memberAt_eq_ok.mp hm
    rcases List.mem_pair.mp href with rfl | rfl
    · exact ⟨_, howner, rfl⟩
    · exact ⟨_, hpair, rfl⟩
  cases entry with
  | utf8 text => cases href
  | integer value => cases href
  | classRef j | stringRef j =>
    obtain ⟨text, ht, -⟩ := except_bind_eq_ok.mp hdenote
    cases List.mem_singleton.mp href
    exact htext ht
  | nameAndType j k =>
    obtain ⟨name, hname, hdenote⟩ := except_bind_eq_ok.mp hdenote
    obtain ⟨descriptor, hdescriptor, -⟩ := except_bind_eq_ok.mp hdenote
    rcases List.mem_pair.mp href with rfl | rfl
    · exact htext hname
    · exact htext hdescriptor
  | fieldRef j k | methodRef j k =>
    obtain ⟨m, hm, -⟩ := except_bind_eq_ok.mp hdenote
    exact hmember hm href

/-- The pool after a run of requests, each of which may fail. -/
def after (requests : List Request) (pool : ConstantPool) : ConstantPool :=
  requests.foldl (fun pool r => stateAfter (r.perform pool)) pool

theorem Request.perform_sound (r : Request) (hv : pool.Valid) :
    (stateAfter (r.perform pool)).Valid ∧ pool.Within (stateAfter (r.perform pool)) ∧
      (pool.Grounded → (stateAfter (r.perform pool)).Grounded) := by
  obtain ⟨hv', hw⟩ := r.perform_keeps.state hv
  refine ⟨hv', hw, ?_⟩
  cases hr : r.perform pool with
  | ok i pool' => exact (interns_of_perform hv hr).grounded
  | error e pool' =>
    obtain ⟨_, _, _, -, hinterns, -⟩ := stops_of_perform hv hr
    exact hinterns.grounded

theorem after_sound (requests : List Request) (hv : pool.Valid) :
    (after requests pool).Valid ∧ pool.Within (after requests pool) ∧
      (pool.Grounded → (after requests pool).Grounded) := by
  induction requests generalizing pool with
  | nil => exact ⟨hv, .refl pool, id⟩
  | cons r rest ih =>
    obtain ⟨hv₁, hw₁, hg₁⟩ := r.perform_sound hv
    obtain ⟨hv₂, hw₂, hg₂⟩ := ih hv₁
    exact ⟨hv₂, hw₁.trans hw₂, fun hg => hg₂ (hg₁ hg)⟩

theorem after_retains (requests : List Request) {key : Bytes} {i : Nat}
    (hi : pool.index[key]? = some i) : (after requests pool).index[key]? = some i := by
  induction requests generalizing pool with
  | nil => exact hi
  | cons r rest ih => exact ih (r.retains pool key i hi)

/-- A request that has succeeded is answered in the same way ever after. -/
theorem Request.perform_again (hv : pool.Valid) {i : Nat} (h : r.perform pool = .ok i pool')
    (later : List Request) : r.perform (after later pool') = .ok i (after later pool') := by
  have hv' := (r.perform_keeps.of_ok hv trivial h).1
  have hkey := after_retains later (index_of_perform h)
  have hagain := r.perform_of_indexed (after_sound later hv').1 fun c hc => by
    obtain ⟨j, hj⟩ := (interns_of_perform hv h).indexed c hc
    exact ⟨j, after_retains later hj⟩
  rw [hagain, indexOf, hkey]
  rfl

/-- What holds of a pool after any run of requests. It is never too large, its references point back
to entries of the right tags and its texts are short; no later request touches an entry, one that
has succeeded is answered in the same way ever after, and one that fails adds at most entries of the
components before the one that is refused. -/
theorem requests_preserve_pool (requests : List Request) :
    let pool := after requests {}
    (1 ≤ pool.count ∧ pool.count ≤ 65535) ∧
    (∀ i entry, entryAt? pool.entries i = some entry → ∀ ref ∈ entry.references, ref.1 < i ∧
      ∃ target, entryAt? pool.entries ref.1 = some target ∧ target.tag = ref.2) ∧
    (∀ i text, entryAt? pool.entries i = some (.utf8 text) →
      (ModifiedUtf8.encode text).length ≤ 65535) ∧
    (∀ later i entry, entryAt? pool.entries i = some entry →
      entryAt? (after later pool).entries i = some entry) ∧
    (∀ (r : Request) i pool', r.perform pool = .ok i pool' →
      (∃ c, pool'.Denotes i c ∧ c.key = r.key) ∧
        ∀ later, r.perform (after later pool') = .ok i (after later pool')) ∧
    ∀ (r : Request) e pool', r.perform pool = .error e pool' →
      ∃ (before : List Request) (refused : Request) (rest added : List Request),
        r.components = before ++ refused :: rest ∧ pool'.Refuses refused e ∧
        pool'.index[refused.key]? = none ∧ added.Sublist before ∧
        pool'.entries.toList = pool.entries.toList ++ added.map (Request.entryIn pool') := by
  intro pool
  obtain ⟨hv, -, hgrounded⟩ := after_sound requests Valid.empty
  have hg : pool.Grounded := hgrounded (by intro i entry hi; simp [entryAt?] at hi)
  refine ⟨⟨Nat.le_add_left 1 _, hv.bounded⟩, fun i entry hi ref href => ?_,
    fun i text hi => hv.short hi, fun later i entry hi => ?_, fun r i pool' hr => ?_,
    fun r e pool' hr => ?_⟩
  · exact ⟨hg i entry hi ref href, hv.target_of_references hi href⟩
  · exact entryAt?_mono (after_sound later hv).2.1 hi
  · have hv' := (r.perform_keeps.of_ok hv trivial hr).1
    exact ⟨hv'.indexed (Request.index_of_perform hr), Request.perform_again hv hr⟩
  · obtain ⟨before, refused, rest, hsplit, hinterns, hnone, hrefuses⟩ :=
      Request.stops_of_perform hv hr
    obtain ⟨added, hsub, -, hentries⟩ := hinterns.added
    exact ⟨before, refused, rest, added, hsplit, hrefuses, hnone, hsub, hentries⟩

end ConstantPool

end ClassForge
