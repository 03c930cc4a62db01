import Mathlib
import ClassForge.ClassFile.Reader
import ClassForge.Sequencing
import ClassForge.Proofs.TextRoundTrip

/-! What holds of every constant pool that requests can make. Every entry denotes a constant, the
entry of a key denotes a constant with that key, and no request moves or changes an entry. -/

namespace ClassForge

namespace Constant

/-- The key under which a constant is interned. -/
def key : Constant → Bytes
  | utf8 text => "utf8:" ++ text
  | integer value => "int:" ++ Decimal.ofInt value.toInt
  | classRef name => "class:" ++ name
  | stringRef text => "string:" ++ text
  | nameAndType name descriptor => "nat:" ++ name ++ ":" ++ descriptor
  | fieldRef m => "field:" ++ m.owner ++ "." ++ m.name ++ ":" ++ m.descriptor
  | methodRef m => "method:" ++ m.owner ++ "." ++ m.name ++ ":" ++ m.descriptor

/-- The first letter of the key, which tells the kind of the constant. -/
def letter : Constant → UInt8
  | utf8 _ => 0x75
  | integer _ => 0x69
  | classRef _ => 0x63
  | stringRef _ => 0x73
  | nameAndType .. => 0x6e
  | fieldRef _ => 0x66
  | methodRef _ => 0x6d

theorem head?_key (c : Constant) : c.key.head? = some c.letter := by
  cases c <;> rfl

theorem letter_eq_of_key_eq {c d : Constant} (h : c.key = d.key) : c.letter = d.letter := by
  have := congrArg List.head? h
  simpa [head?_key] using this

theorem eq_utf8_of_key {c : Constant} {text : Bytes} (h : c.key = (utf8 text).key) :
    c = utf8 text := by
  have hl := letter_eq_of_key_eq h
  cases c with
  | utf8 text' => exact congrArg _ (List.append_cancel_left h)
  | _ => simp [letter] at hl

theorem eq_integer_of_key {c : Constant} {value : Int32} (h : c.key = (integer value).key) :
    c = integer value := by
  have hl := letter_eq_of_key_eq h
  cases c with
  | integer value' =>
    have hv := Decimal.ofInt_injective (List.append_cancel_left h)
    exact congrArg _ (Int32.toInt_inj.mp hv)
  | _ => simp [letter] at hl

theorem eq_classRef_of_key {c : Constant} {name : Bytes} (h : c.key = (classRef name).key) :
    c = classRef name := by
  have hl := letter_eq_of_key_eq h
  cases c with
  | classRef name' => exact congrArg _ (List.append_cancel_left h)
  | _ => simp [letter] at hl

theorem eq_stringRef_of_key {c : Constant} {text : Bytes} (h : c.key = (stringRef text).key) :
    c = stringRef text := by
  have hl := letter_eq_of_key_eq h
  cases c with
  | stringRef text' => exact congrArg _ (List.append_cancel_left h)
  | _ => simp [letter] at hl

/-- Names and descriptors with one key may be split at different colons. -/
theorem eq_nameAndType_of_key {c : Constant} {name descriptor : Bytes}
    (h : c.key = (nameAndType name descriptor).key) :
    ∃ name' descriptor', c = nameAndType name' descriptor' ∧
      name' ++ ":" ++ descriptor' = name ++ ":" ++ descriptor := by
  have hl := letter_eq_of_key_eq h
  cases c with
  | nameAndType name' descriptor' =>
    refine ⟨name', descriptor', rfl, ?_⟩
    simp only [key, List.append_assoc] at h
    simpa only [List.append_assoc] using List.append_cancel_left h
  | _ => simp [letter] at hl

theorem eq_fieldRef_of_key {c : Constant} {m : Member} (h : c.key = (fieldRef m).key) :
    ∃ m', c = fieldRef m' ∧ m'.render = m.render := by
  have hl := letter_eq_of_key_eq h
  cases c with
  | fieldRef m' =>
    refine ⟨m', rfl, ?_⟩
    simp only [key, List.append_assoc] at h
    simpa only [Member.render, List.append_assoc] using List.append_cancel_left h
  | _ => simp [letter] at hl

theorem eq_methodRef_of_key {c : Constant} {m : Member} (h : c.key = (methodRef m).key) :
    ∃ m', c = methodRef m' ∧ m'.render = m.render := by
  have hl := letter_eq_of_key_eq h
  cases c with
  | methodRef m' =>
    refine ⟨m', rfl, ?_⟩
    simp only [key, List.append_assoc] at h
    simpa only [Member.render, List.append_assoc] using List.append_cancel_left h
  | _ => simp [letter] at hl

end Constant

theorem getElem?_of_isPrefix {α : Type} {l l' : List α} (h : l <+: l') {i : Nat} {a : α}
    (ha : l[i]? = some a) : l'[i]? = some a := by
  obtain ⟨more, rfl⟩ := h
  obtain ⟨hi, -⟩ := List.getElem?_eq_some_iff.mp ha
  rw [List.getElem?_append_left hi, ha]

theorem entryAt?_mono {entries entries' : Array PoolEntry}
    (h : entries.toList <+: entries'.toList) {i : Nat} {entry : PoolEntry}
    (he : entryAt? entries i = some entry) : entryAt? entries' i = some entry := by
  simp only [entryAt?] at he ⊢
  split at he
  · simp at he
  · rename_i hi
    rw [if_neg hi]
    rw [← Array.getElem?_toList] at he ⊢
    exact getElem?_of_isPrefix h he

theorem textAt_eq_ok {entries : Array PoolEntry} {i : Nat} {text : Bytes} :
    textAt entries i = .ok text ↔ entryAt? entries i = some (.utf8 text) := by
  simp only [textAt]
  split
  · rename_i text' he
    simp [he]
  · rename_i hne
    simp only [reduceCtorEq, false_iff]
    exact hne text

theorem textAt_mono {entries entries' : Array PoolEntry} (h : entries.toList <+: entries'.toList)
    {i : Nat} {text : Bytes} (ht : textAt entries i = .ok text) : textAt entries' i = .ok text :=
  textAt_eq_ok.mpr (entryAt?_mono h (textAt_eq_ok.mp ht))

theorem memberAt_eq_ok {entries : Array PoolEntry} {index owner pair : Nat} {m : Member} :
    memberAt entries index owner pair = .ok m ↔
      ∃ i j k, entryAt? entries owner = some (.classRef i) ∧
        entryAt? entries pair = some (.nameAndType j k) ∧
        textAt entries i = .ok m.owner ∧ textAt entries j = .ok m.name ∧
        textAt entries k = .ok m.descriptor := by
  simp only [memberAt]
  split
  · rename_i i j k ho hp
    simp only [ho, hp, Option.some.injEq, PoolEntry.classRef.injEq, PoolEntry.nameAndType.injEq]
    constructor
    · intro h
      cases hi : textAt entries i with
      | error e => rw [hi] at h; cases h
      | ok owner =>
        cases hj : textAt entries j with
        | error e => rw [hi, hj] at h; cases h
        | ok name =>
          cases hk : textAt entries k with
          | error e => rw [hi, hj, hk] at h; cases h
          | ok descriptor =>
            rw [hi, hj, hk] at h
            cases h
            exact ⟨i, j, k, rfl, ⟨rfl, rfl⟩, hi, hj, hk⟩
    · rintro ⟨_, _, _, rfl, ⟨rfl, rfl⟩, hi, hj, hk⟩
      rw [hi, hj, hk]
      rfl
  · rename_i hne
    simp only [reduceCtorEq, false_iff]
    rintro ⟨i, j, k, ho, hp, -⟩
    exact hne i j k ho hp

theorem memberAt_mono {entries entries' : Array PoolEntry}
    (h : entries.toList <+: entries'.toList) {index owner pair : Nat} {m : Member}
    (hm : memberAt entries index owner pair = .ok m) :
    memberAt entries' index owner pair = .ok m := by
  obtain ⟨i, j, k, ho, hp, hi, hj, hk⟩ := memberAt_eq_ok.mp hm
  exact memberAt_eq_ok.mpr ⟨i, j, k, entryAt?_mono h ho, entryAt?_mono h hp, textAt_mono h hi,
    textAt_mono h hj, textAt_mono h hk⟩

theorem denote_mono {entries entries' : Array PoolEntry} (h : entries.toList <+: entries'.toList)
    {index : Nat} {entry : PoolEntry} {c : Constant} (hc : entry.denote entries index = .ok c) :
    entry.denote entries' index = .ok c := by
  cases entry with
  | utf8 text => exact hc
  | integer value => exact hc
  | classRef name =>
    obtain ⟨text, ht, hc⟩ := except_bind_eq_ok.mp hc
    exact except_bind_eq_ok.mpr ⟨text, textAt_mono h ht, hc⟩
  | stringRef i =>
    obtain ⟨text, ht, hc⟩ := except_bind_eq_ok.mp hc
    exact except_bind_eq_ok.mpr ⟨text, textAt_mono h ht, hc⟩
  | fieldRef owner pair =>
    obtain ⟨m, hm, hc⟩ := except_bind_eq_ok.mp hc
    exact except_bind_eq_ok.mpr ⟨m, memberAt_mono h hm, hc⟩
  | methodRef owner pair =>
    obtain ⟨m, hm, hc⟩ := except_bind_eq_ok.mp hc
    exact except_bind_eq_ok.mpr ⟨m, memberAt_mono h hm, hc⟩
  | nameAndType name descriptor =>
    obtain ⟨n, hn, hc⟩ := except_bind_eq_ok.mp hc
    obtain ⟨d, hd, hc⟩ := except_bind_eq_ok.mp hc
    exact except_bind_eq_ok.mpr ⟨n, textAt_mono h hn,
      except_bind_eq_ok.mpr ⟨d, textAt_mono h hd, hc⟩⟩

namespace ConstantPool

/-- The entries of the one pool lead those of the other. -/
def Within (pool pool' : ConstantPool) : Prop :=
  pool.entries.toList <+: pool'.entries.toList

theorem Within.refl (pool : ConstantPool) : pool.Within pool :=
  List.prefix_refl _

theorem Within.trans {p q r : ConstantPool} (h : p.Within q) (h' : q.Within r) : p.Within r :=
  List.IsPrefix.trans h h'

/-- The entry at the index stands for the constant. -/
def Denotes (pool : ConstantPool) (i : Nat) (c : Constant) : Prop :=
  ∃ entry, entryAt? pool.entries i = some entry ∧ entry.denote pool.entries i = .ok c

theorem Denotes.mono {pool pool' : ConstantPool} {i : Nat} {c : Constant} (h : pool.Denotes i c)
    (hw : pool.Within pool') : pool'.Denotes i c := by
  obtain ⟨entry, he, hd⟩ := h
  exact ⟨entry, entryAt?_mono hw he, denote_mono hw hd⟩

theorem Denotes.lt_count {pool : ConstantPool} {i : Nat} {c : Constant} (h : pool.Denotes i c) :
    0 < i ∧ i < pool.count := by
  obtain ⟨entry, he, -⟩ := h
  simp only [entryAt?] at he
  split at he
  · simp at he
  · obtain ⟨hi, -⟩ := Array.getElem?_eq_some_iff.mp he
    simp only [count]
    omega

/-- What every pool satisfies that requests can make of the empty one. -/
structure Valid (pool : ConstantPool) : Prop where
  bounded : pool.count ≤ 65535
  denotes : ∀ i, 0 < i → i < pool.count → ∃ c, pool.Denotes i c
  indexed : ∀ {key : Bytes} {i : Nat}, pool.index[key]? = some i → ∃ c, pool.Denotes i c ∧ c.key = key
  short : ∀ {i : Nat} {text : Bytes}, entryAt? pool.entries i = some (.utf8 text) →
    (ModifiedUtf8.encode text).length ≤ 65535

theorem Valid.index_lt {pool : ConstantPool} (hv : pool.Valid) {i : Nat} {c : Constant}
    (h : pool.Denotes i c) : i < 65536 := by
  have hlt := h.lt_count.2
  have hle := hv.bounded
  omega

theorem Valid.empty : Valid {} where
  bounded := by decide
  denotes i h1 h2 := by
    simp only [count] at h2
    exact absurd h2 (by simp; omega)
  indexed h := by simp at h
  short h := by simp [entryAt?] at h

/-- A step on the pool that keeps it valid and only adds to it, also when it fails, and whose
result satisfies `post`. -/
def Keeps {ε α : Type} (pre : ConstantPool → Prop) (x : EStateM ε ConstantPool α)
    (post : α → ConstantPool → Prop) : Prop :=
  ∀ pool, pool.Valid → pre pool →
    match x pool with
    | .ok a pool' => pool'.Valid ∧ pool.Within pool' ∧ post a pool'
    | .error _ pool' => pool'.Valid ∧ pool.Within pool'

theorem Keeps.of_ok {ε α : Type} {pre : ConstantPool → Prop} {x : EStateM ε ConstantPool α}
    {post : α → ConstantPool → Prop} (h : Keeps pre x post) {pool pool' : ConstantPool} {a : α}
    (hv : pool.Valid) (hp : pre pool) (hx : x pool = .ok a pool') :
    pool'.Valid ∧ pool.Within pool' ∧ post a pool' := by
  have := h pool hv hp
  rwa [hx] at this

theorem Keeps.of_error {ε α : Type} {pre : ConstantPool → Prop} {x : EStateM ε ConstantPool α}
    {post : α → ConstantPool → Prop} (h : Keeps pre x post) {pool pool' : ConstantPool} {e : ε}
    (hv : pool.Valid) (hp : pre pool) (hx : x pool = .error e pool') :
    pool'.Valid ∧ pool.Within pool' := by
  have := h pool hv hp
  rwa [hx] at this

theorem Keeps.bind {ε α β : Type} {pre : ConstantPool → Prop} {x : EStateM ε ConstantPool α}
    {f : α → EStateM ε ConstantPool β} {mid : α → ConstantPool → Prop}
    {post : β → ConstantPool → Prop} (hx : Keeps pre x mid) (hf : ∀ a, Keeps (mid a) (f a) post) :
    Keeps pre (x >>= f) post := by
  intro pool hv hp
  cases hr : x pool with
  | error e pool' =>
    rw [bind_eq_of_error hr]
    exact hx.of_error hv hp hr
  | ok a pool' =>
    rw [bind_eq_of_ok hr]
    obtain ⟨hv', hw, hm⟩ := hx.of_ok hv hp hr
    cases hr' : f a pool' with
    | error e pool'' =>
      obtain ⟨hv'', hw'⟩ := (hf a).of_error hv' hm hr'
      exact ⟨hv'', hw.trans hw'⟩
    | ok b pool'' =>
      obtain ⟨hv'', hw', hb⟩ := (hf a).of_ok hv' hm hr'
      exact ⟨hv'', hw.trans hw', hb⟩

theorem Keeps.pure {ε α : Type} {pre : ConstantPool → Prop} {post : α → ConstantPool → Prop} {a : α}
    (h : ∀ pool, pre pool → post a pool) :
    Keeps pre (Pure.pure a : EStateM ε ConstantPool α) post :=
  fun pool hv hp => ⟨hv, .refl pool, h pool hp⟩

theorem Keeps.throw {ε α : Type} {pre : ConstantPool → Prop} {post : α → ConstantPool → Prop}
    (e : ε) : Keeps pre (throw e : EStateM ε ConstantPool α) post :=
  fun pool hv _ => ⟨hv, .refl pool⟩

theorem Keeps.imp {ε α : Type} {pre pre' : ConstantPool → Prop} {x : EStateM ε ConstantPool α}
    {post post' : α → ConstantPool → Prop} (h : Keeps pre x post)
    (hpre : ∀ pool, pre' pool → pre pool) (hpost : ∀ a pool, post a pool → post' a pool) :
    Keeps pre' x post' := by
  intro pool hv hp
  cases hr : x pool with
  | error e pool' => exact h.of_error hv (hpre _ hp) hr
  | ok a pool' =>
    obtain ⟨hv', hw, hq⟩ := h.of_ok hv (hpre _ hp) hr
    exact ⟨hv', hw, hpost _ _ hq⟩

/-- What stays true as a pool grows is true after any step. -/
theorem Keeps.frame {ε α : Type} {pre : ConstantPool → Prop} {x : EStateM ε ConstantPool α}
    {post : α → ConstantPool → Prop} {side : ConstantPool → Prop} (h : Keeps pre x post)
    (hside : ∀ {p q : ConstantPool}, p.Within q → side p → side q) :
    Keeps (fun pool => pre pool ∧ side pool) x (fun a pool => post a pool ∧ side pool) := by
  intro pool hv hp
  cases hr : x pool with
  | error e pool' => exact h.of_error hv hp.1 hr
  | ok a pool' =>
    obtain ⟨hv', hw, hq⟩ := h.of_ok hv hp.1 hr
    exact ⟨hv', hw, hq, hside hw hp.2⟩

theorem Keeps.adapt {ε ε' α : Type} {pre : ConstantPool → Prop} {x : EStateM ε ConstantPool α}
    {post : α → ConstantPool → Prop} (h : Keeps pre x post) (f : ε → ε') :
    Keeps pre (x.adaptExcept f) post := by
  intro pool hv hp
  cases hr : x pool with
  | error e pool' =>
    rw [adaptExcept_eq_error.mpr ⟨e, hr, rfl⟩]
    exact h.of_error hv hp hr
  | ok a pool' =>
    rw [adaptExcept_eq_ok.mpr hr]
    exact h.of_ok hv hp hr

/-- What has to hold for an entry to be added under a key. -/
def Fits (key : Bytes) (entry : PoolEntry) (pool : ConstantPool) : Prop :=
  (∃ c : Constant, c.key = key ∧ ∀ i, entry.denote pool.entries i = .ok c) ∧
    ∀ text, entry = .utf8 text → (ModifiedUtf8.encode text).length ≤ 65535

theorem entryAt?_push {entries : Array PoolEntry} {entry found : PoolEntry} {i : Nat}
    (h : entryAt? (entries.push entry) i = some found) :
    entryAt? entries i = some found ∨ i = entries.size + 1 ∧ found = entry := by
  simp only [entryAt?] at h ⊢
  split at h
  · simp at h
  · rename_i hi
    rw [if_neg hi]
    rw [Array.getElem?_push] at h
    split at h
    · rename_i hs
      exact .inr ⟨by omega, (Option.some.inj h).symm⟩
    · exact .inl h

theorem Valid.push {pool : ConstantPool} {key : Bytes} {entry : PoolEntry} (hv : pool.Valid)
    (hf : Fits key entry pool) (hc : ¬ pool.count > 65534) :
    ∃ c : Constant, c.key = key ∧
      Denotes ⟨pool.entries.push entry, pool.index.insert key pool.count⟩ pool.count c ∧
      Valid ⟨pool.entries.push entry, pool.index.insert key pool.count⟩ := by
  obtain ⟨⟨c, hk, hd⟩, hs⟩ := hf
  let pool' : ConstantPool := ⟨pool.entries.push entry, pool.index.insert key pool.count⟩
  have hw : pool.Within pool' := by simp [Within, pool']
  have hnew : pool'.Denotes pool.count c := by
    refine ⟨entry, ?_, denote_mono hw (hd _)⟩
    simp [entryAt?, pool', count]
  refine ⟨c, hk, hnew, ?_⟩
  constructor
  · simp only [count, Array.size_push] at hc ⊢
    omega
  · intro i h1 h2
    by_cases hi : i < pool.count
    · obtain ⟨d, hd⟩ := hv.denotes i h1 hi
      exact ⟨d, hd.mono hw⟩
    · have : i = pool.count := by
        simp only [count, Array.size_push] at h2 hi ⊢
        omega
      exact ⟨c, this ▸ hnew⟩
  · intro key' i hi
    rw [Std.HashMap.getElem?_insert] at hi
    split at hi
    · rename_i he
      cases hi
      exact ⟨c, hnew, hk.trans (eq_of_beq he)⟩
    · obtain ⟨d, hd, hk'⟩ := hv.indexed hi
      exact ⟨d, hd.mono hw, hk'⟩
  · intro i text ht
    rcases entryAt?_push ht with h | ⟨-, h⟩
    · exact hv.short h
    · exact hs text h.symm

theorem intern_keeps (key : Bytes) (entry : PoolEntry) :
    Keeps (Fits key entry) (intern key entry)
      (fun i pool => ∃ c : Constant, pool.Denotes i c ∧ c.key = key) := by
  intro pool hv hf
  simp only [intern]
  split
  · rename_i i a pool' hr
    split at hr
    · rename_i j hj
      cases hr
      exact ⟨hv, .refl _, hv.indexed hj⟩
    · split at hr
      · cases hr
      · rename_i hc
        cases hr
        obtain ⟨c, hk, hd, hv'⟩ := hv.push hf hc
        exact ⟨hv', by simp [Within], c, hd, hk⟩
  · rename_i e pool' hr
    split at hr
    · cases hr
    · split at hr
      · cases hr
        exact ⟨hv, .refl _⟩
      · cases hr

theorem utf8_keeps (text : Bytes) :
    Keeps (fun _ => True) (utf8 text) (fun i pool => pool.Denotes i (.utf8 text)) := by
  by_cases hl : (ModifiedUtf8.encode text).length > 65535
  · simp only [utf8, hl, if_true]
    exact Keeps.throw _
  · simp only [utf8, hl, if_false]
    refine (intern_keeps _ _).imp (fun pool _ => ?_) ?_
    · exact ⟨⟨.utf8 text, rfl, fun _ => rfl⟩, fun t ht => by cases ht; omega⟩
    · rintro i pool ⟨c, hd, hk⟩
      exact Constant.eq_utf8_of_key hk ▸ hd

theorem Denotes.textAt {pool : ConstantPool} {i : Nat} {text : Bytes}
    (h : pool.Denotes i (.utf8 text)) : textAt pool.entries i = .ok text := by
  obtain ⟨entry, he, hd⟩ := h
  cases entry with
  | utf8 text' =>
    cases hd
    exact textAt_eq_ok.mpr he
  | integer value => cases hd
  | _ =>
    obtain ⟨x, -, hd⟩ := except_bind_eq_ok.mp hd
    first
      | cases hd
      | obtain ⟨y, -, hd⟩ := except_bind_eq_ok.mp hd
        cases hd

theorem Denotes.classRef {pool : ConstantPool} {i : Nat} {name : Bytes}
    (h : pool.Denotes i (.classRef name)) :
    ∃ j, entryAt? pool.entries i = some (.classRef j) ∧ ClassForge.textAt pool.entries j = .ok name := by
  obtain ⟨entry, he, hd⟩ := h
  cases entry with
  | utf8 text => cases hd
  | integer value => cases hd
  | classRef j =>
    obtain ⟨x, hx, hd⟩ := except_bind_eq_ok.mp hd
    cases hd
    exact ⟨j, he, hx⟩
  | _ =>
    obtain ⟨x, -, hd⟩ := except_bind_eq_ok.mp hd
    first
      | cases hd
      | obtain ⟨y, -, hd⟩ := except_bind_eq_ok.mp hd
        cases hd

theorem Denotes.nameAndType {pool : ConstantPool} {i : Nat} {name descriptor : Bytes}
    (h : pool.Denotes i (.nameAndType name descriptor)) :
    ∃ j k, entryAt? pool.entries i = some (.nameAndType j k) ∧
      ClassForge.textAt pool.entries j = .ok name ∧
      ClassForge.textAt pool.entries k = .ok descriptor := by
  obtain ⟨entry, he, hd⟩ := h
  cases entry with
  | utf8 text => cases hd
  | integer value => cases hd
  | nameAndType j k =>
    obtain ⟨x, hx, hd⟩ := except_bind_eq_ok.mp hd
    obtain ⟨y, hy, hd⟩ := except_bind_eq_ok.mp hd
    cases hd
    exact ⟨j, k, he, hx, hy⟩
  | _ =>
    obtain ⟨x, -, hd⟩ := except_bind_eq_ok.mp hd
    cases hd

theorem integer_keeps (value : Int32) :
    Keeps (fun _ => True) (integer value) (fun i pool => pool.Denotes i (.integer value)) := by
  refine (intern_keeps _ _).imp (fun pool _ => ?_) ?_
  · exact ⟨⟨.integer value, rfl, fun _ => rfl⟩, by simp⟩
  · rintro i pool ⟨c, hd, hk⟩
    exact Constant.eq_integer_of_key hk ▸ hd

theorem stringRef_keeps (text : Bytes) :
    Keeps (fun _ => True) (stringRef text) (fun i pool => pool.Denotes i (.stringRef text)) := by
  refine (utf8_keeps text).bind fun i => (intern_keeps _ _).imp (fun pool hi => ?_) ?_
  · have ht := hi.textAt
    exact ⟨⟨.stringRef text, rfl, fun _ => except_bind_eq_ok.mpr ⟨text, ht, rfl⟩⟩, by simp⟩
  · rintro i pool ⟨c, hd, hk⟩
    exact Constant.eq_stringRef_of_key hk ▸ hd

theorem classRef_keeps (name : Bytes) :
    Keeps (fun _ => True) (classRef name) (fun i pool => pool.Denotes i (.classRef name)) := by
  refine (utf8_keeps name).bind fun i => (intern_keeps _ _).imp (fun pool hi => ?_) ?_
  · have ht := hi.textAt
    exact ⟨⟨.classRef name, rfl, fun _ => except_bind_eq_ok.mpr ⟨name, ht, rfl⟩⟩, by simp⟩
  · rintro i pool ⟨c, hd, hk⟩
    exact Constant.eq_classRef_of_key hk ▸ hd

/-- The index denotes a name with a descriptor, split at the right colon or at another one. -/
def DenotesPair (pool : ConstantPool) (i : Nat) (name descriptor : Bytes) : Prop :=
  ∃ name' descriptor', pool.Denotes i (.nameAndType name' descriptor') ∧
    name' ++ ":" ++ descriptor' = name ++ ":" ++ descriptor

theorem nameAndType_keeps (name descriptor : Bytes) :
    Keeps (fun _ => True) (nameAndType name descriptor)
      (fun i pool => pool.DenotesPair i name descriptor) := by
  refine (utf8_keeps name).bind fun i => ?_
  have hsecond := (utf8_keeps descriptor).frame (fun hw h => Denotes.mono (i := i) (c := .utf8 name) h hw)
  refine (hsecond.imp (fun pool h => ⟨trivial, h⟩) (fun _ _ h => h)).bind fun j => ?_
  refine (intern_keeps _ _).imp (fun pool h => ?_) ?_
  · obtain ⟨hj, hi⟩ := h
    exact ⟨⟨.nameAndType name descriptor, rfl, fun _ => except_bind_eq_ok.mpr ⟨name, hi.textAt,
      except_bind_eq_ok.mpr ⟨descriptor, hj.textAt, rfl⟩⟩⟩, by simp⟩
  · rintro k pool ⟨c, hd, hk⟩
    obtain ⟨name', descriptor', rfl, he⟩ := Constant.eq_nameAndType_of_key hk
    exact ⟨name', descriptor', hd, he⟩

theorem memberAt_of_denotes {pool : ConstantPool} {i j : Nat} {owner name descriptor : Bytes}
    (hi : pool.Denotes i (.classRef owner)) (hj : pool.DenotesPair j name descriptor) :
    ∃ m : Member, (∀ k, memberAt pool.entries k i j = .ok m) ∧
      m.render = Member.render ⟨owner, name, descriptor⟩ := by
  obtain ⟨name', descriptor', hd, he⟩ := hj
  obtain ⟨a, ha, hta⟩ := hi.classRef
  obtain ⟨b, c, hb, htb, htc⟩ := hd.nameAndType
  refine ⟨⟨owner, name', descriptor'⟩, fun k => memberAt_eq_ok.mpr ⟨a, b, c, ha, hb, hta, htb, htc⟩, ?_⟩
  simp only [List.append_assoc] at he
  simp only [Member.render, List.append_assoc, he]

/-- References to fields and to methods differ in the kind of their entry only. -/
theorem memberRef_keeps (m : Member) (lead : Bytes) (entry : Nat → Nat → PoolEntry)
    (ref : Member → Constant) (htext : ∀ a b text, entry a b ≠ .utf8 text)
    (hkey : ∀ m, (ref m).key = lead ++ m.owner ++ "." ++ m.name ++ ":" ++ m.descriptor)
    (hdenote : ∀ entries i a b m, memberAt entries i a b = .ok m →
      (entry a b).denote entries i = .ok (ref m))
    (hback : ∀ c m, c.key = (ref m).key → ∃ m', c = ref m' ∧ m'.render = m.render) :
    Keeps (fun _ => True) (do
        let i ← classRef m.owner
        let j ← nameAndType m.name m.descriptor
        intern (lead ++ m.owner ++ "." ++ m.name ++ ":" ++ m.descriptor) (entry i j) : Pooled Nat)
      (fun i pool => ∃ m', pool.Denotes i (ref m') ∧ m'.render = m.render) := by
  refine (classRef_keeps m.owner).bind fun i => ?_
  have hsecond := (nameAndType_keeps m.name m.descriptor).frame
    (fun hw h => Denotes.mono (i := i) (c := .classRef m.owner) h hw)
  refine (hsecond.imp (fun pool h => ⟨trivial, h⟩) (fun _ _ h => h)).bind fun j => ?_
  refine (intern_keeps _ _).imp (fun pool h => ?_) ?_
  · obtain ⟨m', hm, hr⟩ := memberAt_of_denotes h.2 h.1
    refine ⟨⟨ref m', ?_, fun k => hdenote _ _ _ _ _ (hm k)⟩, fun text ht => absurd ht (htext i j text)⟩
    simp only [Member.render, List.append_assoc] at hr
    simp only [hkey, List.append_assoc, hr]
  · rintro k pool ⟨c, hd, hk⟩
    obtain ⟨m', rfl, he⟩ := hback c m (hk.trans (hkey m).symm)
    exact ⟨m', hd, he⟩

theorem fieldRef_keeps (m : Member) :
    Keeps (fun _ => True) (fieldRef m.owner m.name m.descriptor)
      (fun i pool => ∃ m', pool.Denotes i (.fieldRef m') ∧ m'.render = m.render) :=
  memberRef_keeps m "field:" .fieldRef .fieldRef (by simp) (fun _ => rfl)
    (fun _ _ _ _ m h => except_bind_eq_ok.mpr ⟨m, h, rfl⟩)
    (fun _ _ h => Constant.eq_fieldRef_of_key h)

theorem methodRef_keeps (m : Member) :
    Keeps (fun _ => True) (methodRef m.owner m.name m.descriptor)
      (fun i pool => ∃ m', pool.Denotes i (.methodRef m') ∧ m'.render = m.render) :=
  memberRef_keeps m "method:" .methodRef .methodRef (by simp) (fun _ => rfl)
    (fun _ _ _ _ m h => except_bind_eq_ok.mpr ⟨m, h, rfl⟩)
    (fun _ _ h => Constant.eq_methodRef_of_key h)

end ConstantPool

end ClassForge
