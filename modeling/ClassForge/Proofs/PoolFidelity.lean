import ClassForge.Proofs.PoolRequests
import ClassForge.Proofs.RuntimeMembers

/-! What the index that answers a request stands for. Requests with one key share an entry, and a key
joins its texts by colons and dots, so that texts which hold these themselves can be mistaken for
others. An index stands for what was requested exactly if the pool holds nothing else under the keys
that the request goes by. -/

namespace ClassForge

namespace ConstantPool

variable {r s : Request} {pool pool' : ConstantPool} {i j : Nat} {c c' : Constant}

/-- Every constant stands at the index of its key. -/
def Keyed (pool : ConstantPool) : Prop :=
  ∀ i c, pool.Denotes i c → pool.index[c.key]? = some i

theorem Denotes.unique (h : pool.Denotes i c) (h' : pool.Denotes i c') : c = c' := by
  obtain ⟨entry, hentry, hc⟩ := h
  obtain ⟨entry', hentry', hc'⟩ := h'
  rw [hentry, Option.some.injEq] at hentry'
  subst hentry'
  rw [hc] at hc'
  exact Except.ok.inj hc'

namespace Request

theorem constant_injective (h : r.constant = s.constant) : r = s := by
  cases r <;> cases s <;> simp_all [constant]

theorem hasParts_of_performAll (hv : pool.Valid)
    (h : performAll r.parts pool = .ok () pool') : pool'.HasParts r := by
  intro p hp
  have houtcome := performAll_outcome (fun q (_ : q ∈ r.parts) => q.perform_outcome) hv
  rw [h] at houtcome
  have hself : p ∈ p.components := by simp [components_eq p]
  exact Interns.indexed houtcome p (List.mem_flatMap.mpr ⟨p, hp, hself⟩)

theorem performAll_invariant {P : ConstantPool → Prop} {rs : List Request}
    (h : ∀ r ∈ rs, ∀ pool : ConstantPool, pool.Valid → P pool → P (stateAfter (r.perform pool)))
    (hv : pool.Valid) (hp : P pool) : P (stateAfter (performAll rs pool)) := by
  induction rs generalizing pool with
  | nil => exact hp
  | cons r rest ih =>
    have hfirst := h r (by simp) pool hv hp
    change P (stateAfter ((r.perform >>= fun _ => performAll rest) pool))
    cases hr : r.perform pool with
    | error e pool' =>
      rw [hr] at hfirst
      rw [bind_eq_of_error hr]
      exact hfirst
    | ok i pool' =>
      rw [hr] at hfirst
      rw [bind_eq_of_ok hr]
      have hv' := (r.perform_keeps.of_ok hv trivial hr).1
      exact ih (fun q hq => h q (by simp [hq])) hv' hfirst

/-- What is kept by adding a component of the request is kept by the request, whether it succeeds or
fails. -/
theorem perform_invariant {P : ConstantPool → Prop} (r : Request)
    (hadd : ∀ s ∈ r.components, ∀ pool : ConstantPool, pool.Valid → (pool.add s).Valid →
      pool.HasParts s → pool.index[s.key]? = none → P pool → P (pool.add s))
    (hv : pool.Valid) (hp : P pool) : P (stateAfter (r.perform pool)) := by
  induction r using Request.induct generalizing pool with
  | h r ih =>
    have hparts : P (stateAfter (performAll r.parts pool)) := by
      refine performAll_invariant (fun p hp pool hv hP => ih p hp (fun s hs => hadd s ?_) hv hP) hv hp
      rw [components_eq]
      exact List.mem_append_left _ (List.mem_flatMap.mpr ⟨p, hp, hs⟩)
    have hperform := r.perform_eq pool
    cases hall : performAll r.parts pool with
    | error e pool' =>
      rw [hall] at hparts
      rw [hperform, bind_eq_of_error hall]
      exact hparts
    | ok u pool' =>
      rw [hall] at hparts
      rw [bind_eq_of_ok hall] at hperform
      have hv' := ((performAll_keeps r.parts).of_ok hv trivial hall).1
      rw [hperform]
      cases hkey : pool'.index[r.key]? with
      | some i =>
        rw [internSelf_of_index hv' hkey]
        exact hparts
      | none =>
        rcases internSelf_of_new hv' hkey with hok | ⟨e, -, herror⟩
        -- Only here does the pool grow, with the parts of the request in it already.
        · rw [hok] at hperform ⊢
          have hadded := (r.perform_keeps.of_ok hv trivial hperform).1
          exact hadd r (by simp [components_eq r]) pool' hv' hadded (hasParts_of_performAll hv hall)
            hkey hparts
        · rw [herror]
          exact hparts

end Request

theorem denotes_add (hv : pool.Valid) (hadded : (pool.add r).Valid) (h : (pool.add r).Denotes i c) :
    pool.Denotes i c ∨ i = pool.count ∧ c.key = r.key := by
  have hwithin : pool.Within (pool.add r) := by simp [Within, add]
  have hlt := h.lt_count
  by_cases hi : i < pool.count
  · obtain ⟨d, hd⟩ := hv.denotes i hlt.1 hi
    rw [h.unique (hd.mono hwithin)]
    exact .inl hd
  · have hcount : (pool.add r).count = pool.count + 1 := by simp [count, add]
    have heq : i = pool.count := by omega
    have hself : (pool.add r).index[r.key]? = some pool.count := by simp [add]
    obtain ⟨d, hd, hkey⟩ := hadded.indexed hself
    rw [heq] at h
    rw [h.unique hd]
    exact .inr ⟨heq, hkey⟩

theorem Keyed.add (hk : pool.Keyed) (hv : pool.Valid) (hadded : (pool.add r).Valid)
    (hnew : pool.index[r.key]? = none) : (pool.add r).Keyed := by
  intro i c h
  rcases denotes_add hv hadded h with hold | ⟨rfl, hkey⟩
  · exact index_insert hnew (hk i c hold)
  · rw [hkey]
    simp [ConstantPool.add]

theorem Request.perform_keyed (r : Request) (hv : pool.Valid) (hk : pool.Keyed) :
    (stateAfter (r.perform pool)).Keyed :=
  r.perform_invariant (fun _ _ _ hv hadded _ hnew hk => hk.add hv hadded hnew) hv hk

theorem after_keyed (requests : List Request) (hv : pool.Valid) (hk : pool.Keyed) :
    (after requests pool).Keyed := by
  induction requests generalizing pool with
  | nil => exact hk
  | cons r rest ih => exact ih (r.perform_sound hv).1 (r.perform_keyed hv hk)

theorem Keyed.empty : Keyed {} := by
  intro i c h
  have hlt := h.lt_count
  exact absurd hlt.2 (by simp [count]; omega)

namespace Request

/-- A key is ambiguous only between pairs, or between members, of which a request has one each. -/
theorem eq_of_key_of_mem_components {q : Request} (hr : r ∈ q.components) (hs : s ∈ q.components)
    (h : s.key = r.key) : s = r := by
  apply constant_injective
  cases r with
  | utf8 text => exact Constant.eq_utf8_of_key h
  | integer value => exact Constant.eq_integer_of_key h
  | stringRef text => exact Constant.eq_stringRef_of_key h
  | classRef name => exact Constant.eq_classRef_of_key h
  | nameAndType name descriptor =>
    obtain ⟨name', descriptor', hc, -⟩ := Constant.eq_nameAndType_of_key h
    cases constant_injective (s := .nameAndType name' descriptor') hc
    cases q <;> simp_all [components]
  | fieldRef m =>
    obtain ⟨m', hc, -⟩ := Constant.eq_fieldRef_of_key h
    cases constant_injective (s := .fieldRef m') hc
    cases q <;> simp_all [components]
  | methodRef m =>
    obtain ⟨m', hc, -⟩ := Constant.eq_methodRef_of_key h
    cases constant_injective (s := .methodRef m') hc
    cases q <;> simp_all [components]

theorem parts_mem_components {p : Request} (hs : s ∈ r.components) (hp : p ∈ s.parts) :
    p ∈ r.components := by
  induction r using Request.induct with
  | h r ih =>
    rw [components_eq] at hs ⊢
    apply List.mem_append_left
    rcases List.mem_append.mp hs with hs | hs
    · obtain ⟨q, hq, hs⟩ := List.mem_flatMap.mp hs
      exact List.mem_flatMap.mpr ⟨q, hq, ih q hq hs⟩
    · cases List.mem_singleton.mp hs
      exact List.mem_flatMap.mpr ⟨p, hp, by simp [components_eq p]⟩

theorem denote_entryIn (h : ∀ p ∈ r.parts, pool.Denotes (pool.indexOf p) p.constant) (i : Nat) :
    (r.entryIn pool).denote pool.entries i = .ok r.constant := by
  cases r with
  | utf8 text => rfl
  | integer value => rfl
  | stringRef text | classRef text =>
    have htext := (h (.utf8 text) (by simp [parts])).textAt
    exact except_bind_eq_ok.mpr ⟨text, htext, rfl⟩
  | nameAndType name descriptor =>
    have hname := (h (.utf8 name) (by simp [parts])).textAt
    have hdescriptor := (h (.utf8 descriptor) (by simp [parts])).textAt
    exact except_bind_eq_ok.mpr ⟨name, hname, except_bind_eq_ok.mpr ⟨descriptor, hdescriptor, rfl⟩⟩
  | fieldRef m | methodRef m =>
    obtain ⟨a, ha, howner⟩ := (h (.classRef m.owner) (by simp [parts])).classRef
    obtain ⟨b, d, hb, hname, hdescriptor⟩ :=
      (h (.nameAndType m.name m.descriptor) (by simp [parts])).nameAndType
    exact except_bind_eq_ok.mpr
      ⟨m, memberAt_eq_ok.mpr ⟨a, b, d, ha, hb, howner, hname, hdescriptor⟩, rfl⟩

end Request

theorem denotes_of_textAt {text : Bytes} (h : textAt pool.entries i = .ok text) :
    pool.Denotes i (.utf8 text) :=
  ⟨_, textAt_eq_ok.mp h, rfl⟩

theorem denotes_of_memberAt {owner pair : Nat} {m : Member}
    (h : memberAt pool.entries i owner pair = .ok m) :
    pool.Denotes owner (.classRef m.owner) ∧
      pool.Denotes pair (.nameAndType m.name m.descriptor) := by
  obtain ⟨a, b, d, howner, hpair, ha, hb, hd⟩ := memberAt_eq_ok.mp h
  constructor
  · exact ⟨_, howner, except_bind_eq_ok.mpr ⟨_, ha, rfl⟩⟩
  · exact ⟨_, hpair, except_bind_eq_ok.mpr ⟨_, hb, except_bind_eq_ok.mpr ⟨_, hd, rfl⟩⟩⟩

/-- The parts of a constant that a pool denotes are denoted too. -/
theorem Denotes.parts (h : pool.Denotes i r.constant) :
    ∀ p ∈ r.parts, ∃ j, pool.Denotes j p.constant := by
  obtain ⟨entry, hentry, hd⟩ := h
  cases entry with
  | utf8 text =>
    cases Request.constant_injective (s := .utf8 text) (Except.ok.inj hd).symm
    simp [Request.parts]
  | integer value =>
    cases Request.constant_injective (s := .integer value) (Except.ok.inj hd).symm
    simp [Request.parts]
  | classRef j =>
    obtain ⟨text, htext, hd⟩ := except_bind_eq_ok.mp hd
    cases Request.constant_injective (s := .classRef text) (Except.ok.inj hd).symm
    simpa [Request.parts] using ⟨j, denotes_of_textAt htext⟩
  | stringRef j =>
    obtain ⟨text, htext, hd⟩ := except_bind_eq_ok.mp hd
    cases Request.constant_injective (s := .stringRef text) (Except.ok.inj hd).symm
    simpa [Request.parts] using ⟨j, denotes_of_textAt htext⟩
  | nameAndType j k =>
    obtain ⟨name, hname, hd⟩ := except_bind_eq_ok.mp hd
    obtain ⟨descriptor, hdescriptor, hd⟩ := except_bind_eq_ok.mp hd
    cases Request.constant_injective (s := .nameAndType name descriptor) (Except.ok.inj hd).symm
    simpa [Request.parts] using
      ⟨⟨j, denotes_of_textAt hname⟩, ⟨k, denotes_of_textAt hdescriptor⟩⟩
  | fieldRef j k =>
    obtain ⟨m, hm, hd⟩ := except_bind_eq_ok.mp hd
    cases Request.constant_injective (s := .fieldRef m) (Except.ok.inj hd).symm
    obtain ⟨hclass, hpair⟩ := denotes_of_memberAt hm
    simpa [Request.parts] using ⟨⟨j, hclass⟩, ⟨k, hpair⟩⟩
  | methodRef j k =>
    obtain ⟨m, hm, hd⟩ := except_bind_eq_ok.mp hd
    cases Request.constant_injective (s := .methodRef m) (Except.ok.inj hd).symm
    obtain ⟨hclass, hpair⟩ := denotes_of_memberAt hm
    simpa [Request.parts] using ⟨⟨j, hclass⟩, ⟨k, hpair⟩⟩

theorem Denotes.components (h : pool.Denotes i r.constant) :
    ∀ s ∈ r.components, ∃ j, pool.Denotes j s.constant := by
  induction r using Request.induct generalizing i with
  | h r ih =>
    intro s hs
    rw [Request.components_eq] at hs
    rcases List.mem_append.mp hs with hs | hs
    · obtain ⟨p, hp, hs⟩ := List.mem_flatMap.mp hs
      obtain ⟨j, hj⟩ := h.parts p hp
      exact ih p hp hj s hs
    · cases List.mem_singleton.mp hs
      exact ⟨i, h⟩

/-- The pool holds no other constant under a key that the request goes by. -/
def Admits (pool : ConstantPool) (r : Request) : Prop :=
  ∀ s ∈ r.components, ∀ i c, pool.Denotes i c → c.key = s.key → c = s.constant

/-- Whatever a pool denotes is from before or is a component of the request. -/
def Composed (pool : ConstantPool) (r : Request) (pool' : ConstantPool) : Prop :=
  ∀ i c, pool'.Denotes i c → pool.Denotes i c ∨ ∃ s ∈ r.components, c = s.constant

theorem Composed.eq_constant (h : pool.Composed r pool') (hadmits : pool.Admits r)
    (hs : s ∈ r.components) (hc : pool'.Denotes i c) (hkey : c.key = s.key) : c = s.constant := by
  rcases h i c hc with hold | ⟨q, hq, rfl⟩
  · exact hadmits s hs i c hold hkey
  · rw [Request.eq_of_key_of_mem_components hs hq hkey]

theorem Composed.add {pool₀ : ConstantPool} (h : pool₀.Composed r pool) (hadmits : pool₀.Admits r)
    (hs : s ∈ r.components) (hv : pool.Valid) (hadded : (pool.add s).Valid)
    (hparts : pool.HasParts s) : pool₀.Composed r (pool.add s) := by
  intro i c hc
  rcases denotes_add hv hadded hc with hold | ⟨rfl, -⟩
  · exact h i c hold
  · have hpart (p : Request) (hp : p ∈ s.parts) : pool.Denotes (pool.indexOf p) p.constant := by
      obtain ⟨j, hj⟩ := hparts p hp
      obtain ⟨d, hd, hkey⟩ := hv.indexed hj
      have heq := h.eq_constant hadmits (Request.parts_mem_components hs hp) hd hkey
      rwa [indexOf, hj, Option.getD_some, ← heq]
    have hwithin : pool.Within (pool.add s) := by simp [Within, ConstantPool.add]
    have hself : (pool.add s).Denotes pool.count s.constant :=
      ⟨s.entryIn pool, by simp [entryAt?, ConstantPool.add, count],
        denote_mono hwithin (Request.denote_entryIn hpart _)⟩
    exact .inr ⟨s, hs, hc.unique hself⟩

theorem Request.perform_composed (hv : pool.Valid) (hadmits : pool.Admits r) :
    pool.Composed r (stateAfter (r.perform pool)) :=
  r.perform_invariant (fun _ hs _ hv hadded hparts _ h => h.add hadmits hs hv hadded hparts) hv
    fun _ _ hc => .inl hc

/-- The index that answers a request stands for the requested constant exactly if the pool admits
the request. -/
theorem Request.denotes_iff_admits (hv : pool.Valid) (hk : pool.Keyed)
    (h : r.perform pool = .ok i pool') : pool'.Denotes i r.constant ↔ pool.Admits r := by
  have hself : r ∈ r.components := by simp [components_eq r]
  have hindex := index_of_perform h
  obtain ⟨hv', hwithin, -⟩ := r.perform_keeps.of_ok hv trivial h
  constructor
  · intro hdenotes s hs k c hc hkey
    have hk' := r.perform_keyed hv hk
    rw [h] at hk'
    -- The component has one index: the one under which the pool had its key before.
    obtain ⟨j, hj⟩ := hdenotes.components s hs
    have hjkey := hk' j _ hj
    have hkkey := hk' k c (hc.mono hwithin)
    rw [hkey] at hkkey
    have heq : j = k := Option.some.inj (hjkey.symm.trans hkkey)
    exact (hc.mono hwithin).unique (heq ▸ hj)
  · intro hadmits
    have hcomposed := r.perform_composed hv hadmits
    rw [h] at hcomposed
    obtain ⟨c, hc, hkey⟩ := hv'.indexed hindex
    rwa [← Composed.eq_constant hcomposed hadmits hself hc hkey]

/-- Two requests are answered by one index exactly if they have one key. -/
theorem Request.index_eq_iff (hv : pool.Valid) {pool'' : ConstantPool} {later : List Request}
    (hr : r.perform pool = .ok i pool') (hs : s.perform (after later pool') = .ok j pool'') :
    i = j ↔ r.key = s.key := by
  have hv' := (r.perform_keeps.of_ok hv trivial hr).1
  have hlater := (after_sound later hv').1
  have hv'' := (s.perform_keeps.of_ok hlater trivial hs).1
  have hrkey : pool''.index[r.key]? = some i := by
    have hkept := s.retains _ _ _ (after_retains later (index_of_perform hr))
    rwa [hs] at hkept
  have hskey := index_of_perform hs
  constructor
  · rintro rfl
    obtain ⟨c, hc, hckey⟩ := hv''.indexed hrkey
    obtain ⟨d, hd, hdkey⟩ := hv''.indexed hskey
    rw [← hckey, ← hdkey, hc.unique hd]
  · intro hkey
    rw [hkey, hskey] at hrkey
    exact (Option.some.inj hrkey).symm

namespace Request

/-- No text of the request holds a byte that its key joins texts by. -/
def IsPlain : Request → Prop
  | nameAndType name descriptor => (name ++ descriptor).count 0x3a = 0
  | fieldRef m | methodRef m => m.Lacks 0x2e ∧ m.Lacks 0x3a
  | _ => True

theorem IsPlain.eq_of_key (hr : r.IsPlain) (h : c.key = r.key) : c = r.constant := by
  cases r with
  | utf8 text => exact Constant.eq_utf8_of_key h
  | integer value => exact Constant.eq_integer_of_key h
  | stringRef text => exact Constant.eq_stringRef_of_key h
  | classRef name => exact Constant.eq_classRef_of_key h
  | nameAndType name descriptor =>
    obtain ⟨name', descriptor', rfl, hjoined⟩ := Constant.eq_nameAndType_of_key h
    have hcolon : (":" : Bytes) = [0x3a] := by decide
    simp only [hcolon, List.append_assoc, List.singleton_append] at hjoined
    have hplain : (name ++ descriptor).count 0x3a = 0 := hr
    rw [List.count_append] at hplain
    obtain ⟨rfl, rfl⟩ := split_unique hjoined (by
      rw [List.count_append, List.count_cons_self]
      omega)
    rfl
  | fieldRef m =>
    obtain ⟨m', rfl, hrender⟩ := Constant.eq_fieldRef_of_key h
    exact congrArg _ (Member.eq_of_render hrender hr.1 hr.2)
  | methodRef m =>
    obtain ⟨m', rfl, hrender⟩ := Constant.eq_methodRef_of_key h
    exact congrArg _ (Member.eq_of_render hrender hr.1 hr.2)

end Request

theorem tag_eq_of_key_eq (h : c.key = c'.key) : c.tag = c'.tag := by
  have hletter := Constant.letter_eq_of_key_eq h
  cases c <;> cases c' <;> simp_all [Constant.letter, Constant.tag]

/-- A request is answered by an entry of its kind that has its key. The entry stands for the
requested constant exactly if the pool admits the request, and whatever the pool holds if no text of
the request has a colon or a dot in it. Two requests share an index exactly if they share a key. -/
theorem index_denotes_up_to_key (requests : List Request) :
    let pool := after requests {}
    (∀ (r : Request) i pool', r.perform pool = .ok i pool' →
      (∃ c, pool'.Denotes i c ∧ c.tag = r.constant.tag ∧ c.key = r.key) ∧
      (pool'.Denotes i r.constant ↔ pool.Admits r) ∧
      (r.IsPlain → pool'.Denotes i r.constant)) ∧
    ∀ (r s : Request) i j pool' pool'' later, r.perform pool = .ok i pool' →
      s.perform (after later pool') = .ok j pool'' →
      (i = j ↔ r.key = s.key) ∧ (r.IsPlain → (i = j ↔ r = s)) := by
  intro pool
  have hv : pool.Valid := (after_sound requests Valid.empty).1
  have hk : pool.Keyed := after_keyed requests Valid.empty Keyed.empty
  constructor
  · intro r i pool' hr
    have hv' := (r.perform_keeps.of_ok hv trivial hr).1
    obtain ⟨c, hc, hkey⟩ := hv'.indexed (Request.index_of_perform hr)
    refine ⟨⟨c, hc, tag_eq_of_key_eq hkey, hkey⟩, Request.denotes_iff_admits hv hk hr, ?_⟩
    intro hplain
    rwa [← hplain.eq_of_key hkey]
  · intro r s i j pool' pool'' later hr hs
    have hsame := Request.index_eq_iff hv hr hs
    refine ⟨hsame, fun hplain => hsame.trans ⟨fun hkey => ?_, fun heq => heq ▸ rfl⟩⟩
    exact (Request.constant_injective (hplain.eq_of_key hkey.symm)).symm

/-- Two fields with valid names and descriptors, of which the one has a colon in its type and the
other in its name, have one entry for both. The entry has the name and the type of the first. -/
theorem index_shared_by_two_pairs :
    ∃ pool pool', (Request.nameAndType "f" "Lx:Ly;").perform {} = .ok 3 pool ∧
      (Request.nameAndType "f:Lx" "Ly;").perform pool = .ok 3 pool' ∧
      pool'.Denotes 3 (.nameAndType "f" "Lx:Ly;") ∧
      ¬ pool'.Denotes 3 (.nameAndType "f:Lx" "Ly;") := by
  have hok : outcomeIs (fun i pool => i == 3 && outcomeIs (fun j pool' => j == 3 &&
      pool'.entries == #[.utf8 "f", .utf8 "Lx:Ly;", .nameAndType 1 2, .utf8 "f:Lx", .utf8 "Ly;"])
      ((Request.nameAndType "f:Lx" "Ly;").perform pool))
      ((Request.nameAndType "f" "Lx:Ly;").perform {}) = true := by cbv
  obtain ⟨i, pool, hfirst, hok⟩ := of_outcomeIs hok
  obtain ⟨hi, hok⟩ := Bool.and_eq_true_iff.mp hok
  obtain ⟨j, pool', hsecond, hok⟩ := of_outcomeIs hok
  obtain ⟨hj, hentries⟩ := Bool.and_eq_true_iff.mp hok
  cases beq_iff_eq.mp hi
  cases beq_iff_eq.mp hj
  have hdenotes : pool'.Denotes 3 (.nameAndType "f" "Lx:Ly;") := by
    rw [Denotes, beq_iff_eq.mp hentries]
    exact ⟨_, rfl, rfl⟩
  refine ⟨pool, pool', hfirst, hsecond, hdenotes, fun hother => ?_⟩
  exact absurd (hdenotes.unique hother) (by decide)

end ConstantPool

end ClassForge
