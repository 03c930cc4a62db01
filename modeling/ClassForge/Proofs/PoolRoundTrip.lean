import ClassForge.Proofs.PoolInvariant

/-! A constant pool that is written and read back. The entries come back in their places, with the
stray bytes of their texts replaced, and so do the constants they denote. -/

namespace ClassForge

theorem Bytes.toNat_u16 {n : Nat} (hn : n < 65536) :
    (n / 256).toUInt8.toNat * 256 + n.toUInt8.toNat = n := by
  simp only [Nat.toUInt8, UInt8.toNat_ofNat']
  omega

theorem Bytes.number_u16 {n : Nat} (hn : n < 65536) : Bytes.number (Bytes.u16 n) = n := by
  simpa [Bytes.number, Bytes.u16] using Bytes.toNat_u16 hn

theorem Bytes.number_u32 {n : Nat} (hn : n < 4294967296) : Bytes.number (Bytes.u32 n) = n := by
  simp only [Bytes.number, Bytes.u32, Bytes.u16, List.cons_append, List.nil_append, List.foldl_cons,
    List.foldl_nil, Nat.toUInt8, UInt8.toNat_ofNat']
  omega

theorem Bytes.u16_mod (n : Nat) : Bytes.u16 n = Bytes.u16 (n % 65536) := by
  have h1 : (n / 256).toUInt8 = (n % 65536 / 256).toUInt8 := by
    apply UInt8.toNat_inj.mp
    simp only [Nat.toUInt8, UInt8.toNat_ofNat']
    omega
  have h2 : n.toUInt8 = (n % 65536).toUInt8 := by
    apply UInt8.toNat_inj.mp
    simp only [Nat.toUInt8, UInt8.toNat_ofNat']
    omega
  simp only [Bytes.u16, h1, h2]

namespace ClassFile

/-- The reader takes exactly the data from the front of any input, and gives the value. -/
def Reads {α : Type} (x : Reader α) (data : Bytes) (a : α) : Prop :=
  ∀ rest position, x { rest := data ++ rest, position } =
    .ok (a, { rest, position := position + data.length })

theorem Reads.pure {α : Type} (a : α) : Reads (Pure.pure a) [] a :=
  fun _ _ => rfl

theorem Reads.lift {α : Type} {x : Except ReadError α} {a : α} (h : x = .ok a) :
    Reads (liftM x) [] a := by
  subst h
  exact fun _ _ => rfl

theorem Reads.bind {α β : Type} {x : Reader α} {f : α → Reader β} {data data' : Bytes} {a : α}
    {b : β} (hx : Reads x data a) (hf : Reads (f a) data' b) :
    Reads (x >>= f) (data ++ data') b := by
  intro rest position
  have h : (x >>= f) { rest := data ++ data' ++ rest, position } =
      f a { rest := data' ++ rest, position := position + data.length } := by
    change StateT.bind x f _ = _
    simp only [StateT.bind, Bind.bind, Except.bind, List.append_assoc, hx (data' ++ rest) position]
  rw [h, hf rest (position + data.length), List.length_append, Nat.add_assoc]

theorem Reads.bind_of_nil {α β : Type} {x : Reader α} {f : α → Reader β} {data : Bytes} {a : α}
    {b : β} (hx : Reads x [] a) (hf : Reads (f a) data b) : Reads (x >>= f) data b :=
  hx.bind hf

theorem Reads.bind_nil {α β : Type} {x : Reader α} {f : α → Reader β} {data : Bytes} {a : α}
    {b : β} (hx : Reads x data a) (hf : Reads (f a) [] b) : Reads (x >>= f) data b := by
  have h := hx.bind hf
  rwa [List.append_nil] at h

theorem reads_failed : Reads failed [] false :=
  fun _ _ => rfl

theorem reads_check : Reads check [] () :=
  fun _ _ => rfl

theorem reads_take (data : Bytes) : Reads (take data.length) data data := by
  intro rest position
  simp [take]

theorem reads_number (data : Bytes) : Reads (number data.length) data data.number :=
  (reads_take data).bind_nil (Reads.pure _)

theorem reads_u8 (a : UInt8) : Reads u8 [a] a.toNat := by
  have h := reads_number [a]
  rwa [show Bytes.number [a] = a.toNat by simp [Bytes.number]] at h

theorem reads_u16 {n : Nat} (hn : n < 65536) : Reads u16 (Bytes.u16 n) n := by
  have h := reads_number (Bytes.u16 n)
  rwa [Bytes.number_u16 hn] at h

theorem reads_u32 {n : Nat} (hn : n < 4294967296) : Reads u32 (Bytes.u32 n) n := by
  have h := reads_number (Bytes.u32 n)
  rwa [Bytes.number_u32 hn] at h

theorem reads_readText {text : Bytes} (h : (ModifiedUtf8.encode text).length ≤ 65535) :
    Reads readText (Bytes.u16 (ModifiedUtf8.encode text).length ++ ModifiedUtf8.encode text)
      (Utf8.repair text) := by
  refine (reads_u16 (by omega)).bind ((reads_take (ModifiedUtf8.encode text)).bind_nil ?_)
  rw [ModifiedUtf8.decode_encode]
  exact Reads.pure _

theorem reads_many {α β : Type} {item : Nat → Reader α} {write : β → Bytes} {value : β → α}
    (xs : List β) (h : ∀ k, ∀ x ∈ xs, Reads (item k) (write x) (value x)) (done : Array α) :
    Reads (many item done xs.length) (xs.flatMap write) (done ++ (xs.map value).toArray) := by
  induction xs generalizing done with
  | nil => simpa [many] using Reads.pure done
  | cons x xs ih =>
    have hx := h done.size x (by simp)
    have hrest := ih (fun k y hy => h k y (by simp [hy])) (done.push (value x))
    have hd : done.push (value x) ++ (xs.map value).toArray =
        done ++ ((x :: xs).map value).toArray := by
      apply Array.toList_inj.mp
      simp
    rw [hd] at hrest
    rw [List.flatMap_cons, List.length_cons, many]
    exact reads_failed.bind_of_nil (hx.bind hrest)

end ClassFile

/-- An entry as it is read back. -/
def PoolEntry.repaired : PoolEntry → PoolEntry
  | utf8 text => utf8 (Utf8.repair text)
  | entry => entry

def Member.repaired (m : Member) : Member :=
  ⟨Utf8.repair m.owner, Utf8.repair m.name, Utf8.repair m.descriptor⟩

/-- A constant as it is read back. -/
def Constant.repaired : Constant → Constant
  | utf8 text => utf8 (Utf8.repair text)
  | integer value => integer value
  | classRef name => classRef (Utf8.repair name)
  | stringRef text => stringRef (Utf8.repair text)
  | fieldRef m => fieldRef m.repaired
  | methodRef m => methodRef m.repaired
  | nameAndType name descriptor => nameAndType (Utf8.repair name) (Utf8.repair descriptor)

theorem entryAt?_lt {entries : Array PoolEntry} {i : Nat} {entry : PoolEntry}
    (h : entryAt? entries i = some entry) : i ≤ entries.size := by
  simp only [entryAt?] at h
  split at h
  · simp at h
  · obtain ⟨hi, -⟩ := Array.getElem?_eq_some_iff.mp h
    omega

theorem textAt_lt {entries : Array PoolEntry} {i : Nat} {text : Bytes}
    (h : textAt entries i = .ok text) : i ≤ entries.size :=
  entryAt?_lt (textAt_eq_ok.mp h)

theorem memberAt_lt {entries : Array PoolEntry} {index i j : Nat} {m : Member}
    (h : memberAt entries index i j = .ok m) : i ≤ entries.size ∧ j ≤ entries.size := by
  obtain ⟨a, b, c, ha, hb, -⟩ := memberAt_eq_ok.mp h
  exact ⟨entryAt?_lt ha, entryAt?_lt hb⟩

/-- An entry that denotes a constant is written in a form that reads back. -/
theorem reads_readEntry {entries : Array PoolEntry} {index before : Nat} {entry : PoolEntry}
    {c : Constant} (hd : entry.denote entries index = .ok c) (hs : entries.size < 65536)
    (ht : ∀ text, entry = .utf8 text → (ModifiedUtf8.encode text).length ≤ 65535) :
    ClassFile.Reads (ClassFile.readEntry before) entry.bytes (some entry.repaired) := by
  cases entry with
  | utf8 text =>
    exact (ClassFile.reads_u8 1).bind ((ClassFile.reads_readText (ht text rfl)).bind_nil (.pure _))
  | integer value =>
    refine (ClassFile.reads_u8 3).bind ((ClassFile.reads_u32 value.toUInt32.toNat_lt).bind_nil ?_)
    rw [UInt32.ofNat_toNat, Int32.toInt32_toUInt32]
    exact .pure _
  | classRef i =>
    obtain ⟨text, hi, -⟩ := except_bind_eq_ok.mp hd
    have := textAt_lt hi
    exact (ClassFile.reads_u8 7).bind ((ClassFile.reads_u16 (by omega)).bind_nil (.pure _))
  | stringRef i =>
    obtain ⟨text, hi, -⟩ := except_bind_eq_ok.mp hd
    have := textAt_lt hi
    exact (ClassFile.reads_u8 8).bind ((ClassFile.reads_u16 (by omega)).bind_nil (.pure _))
  | fieldRef i j =>
    obtain ⟨m, hm, -⟩ := except_bind_eq_ok.mp hd
    obtain ⟨hi, hj⟩ := memberAt_lt hm
    exact (ClassFile.reads_u8 9).bind ((ClassFile.reads_u16 (by omega)).bind
      ((ClassFile.reads_u16 (by omega)).bind_nil (.pure _)))
  | methodRef i j =>
    obtain ⟨m, hm, -⟩ := except_bind_eq_ok.mp hd
    obtain ⟨hi, hj⟩ := memberAt_lt hm
    exact (ClassFile.reads_u8 10).bind ((ClassFile.reads_u16 (by omega)).bind
      ((ClassFile.reads_u16 (by omega)).bind_nil (.pure _)))
  | nameAndType i j =>
    obtain ⟨n, hn, hd⟩ := except_bind_eq_ok.mp hd
    obtain ⟨d, hd, -⟩ := except_bind_eq_ok.mp hd
    have hi := textAt_lt hn
    have hj := textAt_lt hd
    exact (ClassFile.reads_u8 12).bind ((ClassFile.reads_u16 (by omega)).bind
      ((ClassFile.reads_u16 (by omega)).bind_nil (.pure _)))

theorem entryAt?_repaired {entries : Array PoolEntry} {i : Nat} {entry : PoolEntry}
    (h : entryAt? entries i = some entry) :
    entryAt? (entries.map PoolEntry.repaired) i = some entry.repaired := by
  simp only [entryAt?] at h ⊢
  split at h
  · simp at h
  · rename_i hi
    rw [if_neg hi, Array.getElem?_map, h]
    rfl

theorem textAt_repaired {entries : Array PoolEntry} {i : Nat} {text : Bytes}
    (h : textAt entries i = .ok text) :
    textAt (entries.map PoolEntry.repaired) i = .ok (Utf8.repair text) :=
  textAt_eq_ok.mpr (entryAt?_repaired (textAt_eq_ok.mp h))

theorem memberAt_repaired {entries : Array PoolEntry} {index i j : Nat} {m : Member}
    (h : memberAt entries index i j = .ok m) :
    memberAt (entries.map PoolEntry.repaired) index i j = .ok m.repaired := by
  obtain ⟨a, b, c, hi, hj, ha, hb, hc⟩ := memberAt_eq_ok.mp h
  exact memberAt_eq_ok.mpr ⟨a, b, c, entryAt?_repaired hi, entryAt?_repaired hj,
    textAt_repaired ha, textAt_repaired hb, textAt_repaired hc⟩

theorem denote_repaired {entries : Array PoolEntry} {index : Nat} {entry : PoolEntry} {c : Constant}
    (h : entry.denote entries index = .ok c) :
    entry.repaired.denote (entries.map PoolEntry.repaired) index = .ok c.repaired := by
  cases entry with
  | utf8 text => cases h; rfl
  | integer value => cases h; rfl
  | classRef i =>
    obtain ⟨text, hi, h⟩ := except_bind_eq_ok.mp h
    cases h
    exact except_bind_eq_ok.mpr ⟨_, textAt_repaired hi, rfl⟩
  | stringRef i =>
    obtain ⟨text, hi, h⟩ := except_bind_eq_ok.mp h
    cases h
    exact except_bind_eq_ok.mpr ⟨_, textAt_repaired hi, rfl⟩
  | fieldRef i j =>
    obtain ⟨m, hm, h⟩ := except_bind_eq_ok.mp h
    cases h
    exact except_bind_eq_ok.mpr ⟨_, memberAt_repaired hm, rfl⟩
  | methodRef i j =>
    obtain ⟨m, hm, h⟩ := except_bind_eq_ok.mp h
    cases h
    exact except_bind_eq_ok.mpr ⟨_, memberAt_repaired hm, rfl⟩
  | nameAndType i j =>
    obtain ⟨n, hn, h⟩ := except_bind_eq_ok.mp h
    obtain ⟨d, hd, h⟩ := except_bind_eq_ok.mp h
    cases h
    exact except_bind_eq_ok.mpr ⟨_, textAt_repaired hn,
      except_bind_eq_ok.mpr ⟨_, textAt_repaired hd, rfl⟩⟩

theorem resolveFrom_eq_ok (entries : Array PoolEntry) (rest : List PoolEntry) (done : Array Constant)
    (h : ∀ (k : Nat) (entry : PoolEntry), rest[k]? = some entry →
      ∃ c, entry.denote entries (done.size + k + 1) = .ok c) :
    ∃ constants, resolveFrom entries done rest = .ok (done ++ constants) ∧
      constants.size = rest.length ∧
      ∀ (k : Nat) (entry : PoolEntry) (c : Constant), rest[k]? = some entry →
        entry.denote entries (done.size + k + 1) = .ok c → constants[k]? = some c := by
  induction rest generalizing done with
  | nil => exact ⟨#[], by simp [resolveFrom], rfl, by simp⟩
  | cons entry rest ih =>
    obtain ⟨c, hc⟩ := h 0 entry rfl
    -- The indexes of the rest start behind the constant that was just resolved.
    have hstep : ∀ k, (done.push c).size + k + 1 = done.size + (k + 1) + 1 := by
      intro k
      simp only [Array.size_push]
      omega
    obtain ⟨constants, hr, hs, hall⟩ := ih (done.push c) (fun k e he => by
      rw [hstep]
      exact h (k + 1) e (by simpa using he))
    refine ⟨#[c] ++ constants, ?_, by simp [hs, Nat.add_comm], ?_⟩
    · simp only [Nat.add_zero] at hc
      simp only [resolveFrom, hc, hr, Except.ok.injEq]
      apply Array.toList_inj.mp
      simp
    · intro k e d he hd
      cases k with
      | zero =>
        cases he
        rw [hc] at hd
        cases hd
        simp
      | succ k =>
        have := hall k e d (by simpa using he) (by rw [hstep]; exact hd)
        rw [Array.getElem?_append_right (by simp)]
        simpa using this

namespace ConstantPool

variable {pool : ConstantPool}

theorem Valid.denote_eq_ok (hv : pool.Valid) {k : Nat} {entry : PoolEntry}
    (he : pool.entries[k]? = some entry) : ∃ c, entry.denote pool.entries (k + 1) = .ok c := by
  obtain ⟨hk, -⟩ := Array.getElem?_eq_some_iff.mp he
  obtain ⟨c, entry', he', hc⟩ := hv.denotes (k + 1) (by omega) (by simp only [count]; omega)
  simp only [entryAt?, Nat.add_one_ne_zero, if_false, Nat.add_sub_cancel, he,
    Option.some.injEq] at he'
  exact ⟨c, he' ▸ hc⟩

/-- The entries of a valid pool resolve as they are read, and each constant stands in its place. -/
theorem Valid.resolve_repaired (hv : pool.Valid) :
    ∃ constants : Array Constant,
      resolve (pool.entries.map PoolEntry.repaired) = .ok constants ∧
      constants.size = pool.entries.size ∧
      ∀ {i c}, pool.Denotes i c → constantAt constants i = .ok c.repaired := by
  have hdenote : ∀ (k : Nat) (entry : PoolEntry),
      (pool.entries.map PoolEntry.repaired).toList[k]? = some entry →
      ∃ c, entry.denote (pool.entries.map PoolEntry.repaired) (k + 1) = .ok c := by
    intro k entry he
    simp only [Array.toList_map, List.getElem?_map, Array.getElem?_toList] at he
    obtain ⟨entry', he', rfl⟩ := Option.map_eq_some_iff.mp he
    obtain ⟨c, hc⟩ := hv.denote_eq_ok he'
    exact ⟨c.repaired, denote_repaired hc⟩
  obtain ⟨constants, hr, hs, hall⟩ := resolveFrom_eq_ok (pool.entries.map PoolEntry.repaired)
    (pool.entries.map PoolEntry.repaired).toList #[] (by simpa using hdenote)
  refine ⟨constants, by simpa [resolve] using hr, by simpa using hs, ?_⟩
  rintro i c ⟨entry, he, hc⟩
  simp only [entryAt?] at he
  split at he
  · cases he
  · next hi =>
    have hindex : i - 1 + 1 = i := by omega
    have hconstant := hall (i - 1) entry.repaired c.repaired (by simp [he])
      (by simpa [hindex] using denote_repaired hc)
    simp [constantAt, hi, hconstant]

theorem Valid.reads_readEntry (hv : pool.Valid) {entry : PoolEntry}
    (he : entry ∈ pool.entries.toList) (k : Nat) :
    ClassFile.Reads (ClassFile.readEntry k) entry.bytes (some entry.repaired) := by
  obtain ⟨j, hj⟩ := List.getElem?_of_mem he
  rw [Array.getElem?_toList] at hj
  obtain ⟨c, hc⟩ := hv.denote_eq_ok hj
  have hsize : pool.entries.size < 65536 := by
    have := hv.bounded
    simp only [count] at this
    omega
  refine ClassForge.reads_readEntry hc hsize ?_
  rintro text rfl
  exact hv.short (i := j + 1) (by simp [entryAt?, hj])

theorem Valid.reads_readPool (hv : pool.Valid) :
    ClassFile.Reads ClassFile.readPool pool.bytes (pool.entries.map PoolEntry.repaired) := by
  have hcount : pool.count < 65536 := by
    have := hv.bounded
    omega
  have hentries := ClassFile.reads_many pool.entries.toList
    (fun k entry he => hv.reads_readEntry he k) #[]
  have hread : (#[] ++ (pool.entries.toList.map fun entry =>
      some (PoolEntry.repaired entry)).toArray).filterMap id =
      pool.entries.map PoolEntry.repaired := by
    apply Array.toList_inj.mp
    simp [List.filterMap_map]
  refine (ClassFile.reads_u16 hcount).bind ?_
  simp only [count, Nat.add_one_ne_zero, if_false, Nat.add_sub_cancel]
  refine hentries.bind_nil (ClassFile.reads_check.bind_of_nil ?_)
  rw [hread]
  exact .pure _

end ConstantPool

end ClassForge
