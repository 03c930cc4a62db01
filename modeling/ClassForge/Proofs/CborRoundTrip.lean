import ClassForge.Dump.Cbor
import Mathlib.Data.List.Forall2

/-! The encodings of objects. A number stands in front of an item in the least space or in more; an
item that is written takes the least. The reader here takes an item from any of its encodings, as
long as its lists keep to the limit. -/

namespace ClassForge.Cbor

/-- The first bytes of an item, with its major type and a number, in each space that the number
fits. -/
inductive Head (major : UInt8) (n : Nat) : Bytes → Prop
  | bits (h : n < 24) : Head major n [major * 32 + n.toUInt8]
  | one (h : n < 256) : Head major n [major * 32 + 24, n.toUInt8]
  | two (h : n < 65536) : Head major n ((major * 32 + 25) :: Bytes.u16 n)
  | four (h : n < 4294967296) : Head major n ((major * 32 + 26) :: Bytes.u32 n)
  | eight (h : n < 18446744073709551616) :
    Head major n ((major * 32 + 27) :: (Bytes.u32 (n / 4294967296) ++ Bytes.u32 n))

def EncodesInt (n : Int) (s : Bytes) : Prop :=
  if 0 ≤ n then Head 0 n.toNat s else Head 1 (-1 - n).toNat s

def EncodesText (t s : Bytes) : Prop :=
  ∃ first, Head 3 t.length first ∧ s = first ++ t

def EncodesNull (s : Bytes) : Prop :=
  s = null

/-- An array of things of one kind, whose encodings are given. -/
def EncodesArray {α : Type} (encodes : α → Bytes → Prop) (as : List α) (s : Bytes) : Prop :=
  ∃ first parts, Head 4 as.length first ∧ List.Forall₂ encodes as parts ∧
    s = first ++ parts.flatten

/-- A map from texts to things whose encodings are given, in their order. -/
def EncodesMap (entries : List (Bytes × (Bytes → Prop))) (s : Bytes) : Prop :=
  ∃ first pairs, Head 5 entries.length first ∧
    List.Forall₂ (fun entry (pair : Bytes × Bytes) => EncodesText entry.1 pair.1 ∧ entry.2 pair.2)
      entries pairs ∧
    s = first ++ pairs.flatMap fun pair => pair.1 ++ pair.2

/-! What is written is an encoding. -/

theorem head_shortest (major : UInt8) {n : Nat} (hn : n < 18446744073709551616) :
    Head major n (head major n) := by
  unfold head
  split
  · exact .bits ‹_›
  split
  · exact .one ‹_›
  split
  · exact .two ‹_›
  split
  · exact .four ‹_›
  · exact .eight hn

theorem encodes_int {n : Int} (hlow : -9223372036854775808 ≤ n) (hhigh : n < 9223372036854775808) :
    EncodesInt n (int n) := by
  unfold EncodesInt int
  split
  · exact head_shortest 0 (by omega)
  · exact head_shortest 1 (by omega)

theorem encodes_text {t : Bytes} (ht : t.length < 18446744073709551616) :
    EncodesText t (text t) :=
  ⟨_, head_shortest 3 ht, rfl⟩

theorem encodes_array {α : Type} {encodes : α → Bytes → Prop} {write : α → Bytes} {as : List α}
    (hlength : as.length < 18446744073709551616) (h : ∀ a ∈ as, encodes a (write a)) :
    EncodesArray encodes as (array (as.map write)) := by
  refine ⟨_, as.map write, head_shortest 4 hlength, ?_, by rw [array, List.length_map]⟩
  rw [List.forall₂_map_right_iff, List.forall₂_same]
  exact h

theorem encodes_map {entries : List (Bytes × (Bytes → Prop))} {pairs : List (Bytes × Bytes)}
    (hlength : entries.length < 18446744073709551616)
    (h : List.Forall₂ (fun entry (pair : Bytes × Bytes) => entry.1 = pair.1 ∧
      entry.1.length < 18446744073709551616 ∧ entry.2 pair.2) entries pairs) :
    EncodesMap entries (map pairs) := by
  refine ⟨_, pairs.map fun pair => (text pair.1, pair.2), head_shortest 5 hlength, ?_, ?_⟩
  · rw [List.forall₂_map_right_iff]
    refine h.imp fun entry pair hpair => ⟨?_, hpair.2.2⟩
    rw [← hpair.1]
    exact encodes_text hpair.2.1
  · rw [map, h.length_eq, List.flatMap_map]

/-! What the reader does with an encoding. -/

theorem number_add (n width width' : Nat) (s : Bytes) :
    number n (width + width') s = (number n width s).bind fun r => number r.1 width' r.2 := by
  induction width generalizing n s with
  | zero => simp [number]
  | succ width ih =>
    rw [Nat.add_right_comm]
    cases s with
    | nil => rfl
    | cons b s => exact ih _ s

theorem number_u16 (n m : Nat) (rest : Bytes) :
    number n 2 (Bytes.u16 m ++ rest) = some (n * 65536 + m % 65536, rest) := by
  have hhigh : (m / 256).toUInt8.toNat = m / 256 % 256 := by simp
  have hlow : m.toUInt8.toNat = m % 256 := by simp
  have hvalue : (n * 256 + m / 256 % 256) * 256 + m % 256 = n * 65536 + m % 65536 := by omega
  simp only [Bytes.u16, List.cons_append, List.nil_append, number, hhigh, hlow, hvalue]

theorem number_u32 (n m : Nat) (rest : Bytes) :
    number n 4 (Bytes.u32 m ++ rest) = some (n * 4294967296 + m % 4294967296, rest) := by
  have hvalue : (n * 65536 + m / 65536 % 65536) * 65536 + m % 65536 =
      n * 4294967296 + m % 4294967296 := by omega
  rw [show 4 = 2 + 2 from rfl, number_add, Bytes.u32, List.append_assoc, number_u16,
    Option.bind_some, number_u16, hvalue]

theorem number_u64 {m : Nat} (hm : m < 18446744073709551616) (rest : Bytes) :
    number 0 8 (Bytes.u32 (m / 4294967296) ++ (Bytes.u32 m ++ rest)) = some (m, rest) := by
  have hvalue : (0 * 4294967296 + m / 4294967296 % 4294967296) * 4294967296 + m % 4294967296 =
      m := by omega
  rw [show 8 = 4 + 4 from rfl, number_add, number_u32, Option.bind_some, number_u32, hvalue]

/-- The bytes are the first of an item with the major type and the number. -/
def Leads (major n : Nat) (s : Bytes) : Prop :=
  ∃ b tail, s = b :: tail ∧ b.toNat / 32 = major ∧
    ∀ rest, argument (b.toNat % 32) (tail ++ rest) = some (some n, rest)

theorem toNat_lead {major : UInt8} (hmajor : major.toNat < 8) {low : Nat} (hlow : low < 32) :
    (major * 32 + low.toUInt8).toNat / 32 = major.toNat ∧
      (major * 32 + low.toUInt8).toNat % 32 = low := by
  have hvalue : (major * 32 + low.toUInt8).toNat = major.toNat * 32 + low := by
    simp only [UInt8.toNat_add, UInt8.toNat_mul, UInt8.reduceToNat, Nat.toUInt8, UInt8.toNat_ofNat']
    omega
  omega

theorem Head.leads {major : UInt8} {n : Nat} {s : Bytes} (h : Head major n s)
    (hmajor : major.toNat < 8) : Leads major.toNat n s := by
  have hlead (low : Nat) (hlow : low < 32) {tail : Bytes}
      (h : ∀ rest, argument low (tail ++ rest) = some (some n, rest)) :
      Leads major.toNat n ((major * 32 + low.toUInt8) :: tail) := by
    obtain ⟨htype, hbits⟩ := toNat_lead hmajor hlow
    exact ⟨_, tail, rfl, htype, fun rest => by rw [hbits, h]⟩
  cases h with
  | bits h => exact hlead n (by omega) fun rest => by simp [argument, h]
  | one h =>
    have hbyte : n.toUInt8.toNat = n := by
      simp only [Nat.toUInt8, UInt8.toNat_ofNat']
      omega
    exact hlead 24 (by omega) fun rest => by simp [argument, number, hbyte]
  | two h =>
    refine hlead 25 (by omega) fun rest => ?_
    simp [argument, number_u16, Nat.mod_eq_of_lt h]
  | four h =>
    refine hlead 26 (by omega) fun rest => ?_
    simp [argument, number_u32, Nat.mod_eq_of_lt h]
  | eight h =>
    refine hlead 27 (by omega) fun rest => ?_
    simp [argument, number_u64 h]

/-- In front of any bytes, the bytes are read as the item. -/
def Codes (read : Bytes → Option (Item × Bytes)) (s : Bytes) (i : Item) : Prop :=
  ∀ rest, read (s ++ rest) = some (i, rest)

/-- What reads the items inside those of a level. -/
def inside : (levels : Nat) → Option (Bytes → Option (Item × Bytes))
  | 0 => none
  | levels + 1 => some (item levels)

theorem item_eq (levels : Nat) : item levels = tagged (inside levels) := by
  cases levels <;> rfl

/-- Only the first byte decides how an item is read that is not a tag. -/
theorem item_leads (levels : Nat) {major n : Nat} {s : Bytes} (h : Leads major n s) (htag : major ≠ 6) :
    ∃ b : UInt8, b.toNat / 32 = major ∧ ∀ rest, ∃ tail,
      item levels (s ++ rest) = untagged (inside levels) (b :: tail) ∧
        argument (b.toNat % 32) tail = some (some n, rest) := by
  obtain ⟨b, tail, rfl, hb, hargument⟩ := h
  refine ⟨b, hb, fun rest => ⟨tail ++ rest, ?_, hargument rest⟩⟩
  have hplain : isTag (b :: (tail ++ rest)) = false := by simp [isTag, hb, htag]
  rw [item_eq, List.cons_append, tagged]
  simp [hplain]

def intItem (n : Int) : Item :=
  if 0 ≤ n then .unsigned n.toNat else .negative (-1 - n).toNat

theorem codes_int (levels : Nat) {n : Int} {s : Bytes} (h : EncodesInt n s) :
    Codes (item levels) s (intItem n) := by
  intro rest
  unfold EncodesInt at h
  unfold intItem
  split at h
  · next hn =>
    obtain ⟨b, hb, hread⟩ := item_leads levels (h.leads (by decide)) (by decide)
    obtain ⟨tail, hitem, hargument⟩ := hread rest
    rw [if_pos hn, hitem]
    simp only [untagged, hargument, hb]
    rfl
  · next hn =>
    obtain ⟨b, hb, hread⟩ := item_leads levels (h.leads (by decide)) (by decide)
    obtain ⟨tail, hitem, hargument⟩ := hread rest
    rw [if_neg hn, hitem]
    simp only [untagged, hargument, hb]
    rfl

theorem codes_text (levels : Nat) {t s : Bytes} (h : EncodesText t s) :
    Codes (item levels) s (.text [t]) := by
  intro rest
  obtain ⟨first, hfirst, rfl⟩ := h
  obtain ⟨b, hb, hread⟩ := item_leads levels (hfirst.leads (by decide)) (by decide)
  obtain ⟨tail, hitem, hargument⟩ := hread (t ++ rest)
  have hchunk : chunk t.length (t ++ rest) = some (t, rest) := by simp [chunk]
  rw [List.append_assoc, hitem]
  simp only [untagged, hargument, hb]
  simp [string, hchunk]

theorem codes_null (levels : Nat) {s : Bytes} (h : EncodesNull s) :
    Codes (item levels) s (.simple 22) := by
  intro rest
  rw [h, item_eq]
  rfl

theorem items_codes {read : Bytes → Option (Item × Bytes)} {ss : List Bytes} {is : List Item}
    (h : List.Forall₂ (Codes read) ss is) (done : List Item) (rest : Bytes) :
    items read done ss.length (ss.flatten ++ rest) = some (done.reverse ++ is, rest) := by
  induction h generalizing done with
  | nil => simp [items]
  | cons hi _ ih =>
    rw [List.flatten_cons, List.append_assoc, List.length_cons, items, hi]
    simp [ih]

theorem inner_codes {read : Bytes → Option (Item × Bytes)} {ss : List Bytes} {is : List Item}
    (h : List.Forall₂ (Codes read) ss is) {perEntry n : Nat} (hlength : ss.length = perEntry * n)
    (hn : n ≤ maxItems) (rest : Bytes) :
    inner read perEntry (some n) (ss.flatten ++ rest) = some (is, rest) := by
  rw [inner, if_neg (by omega), ← hlength, items_codes h]
  rfl

theorem codes_parts {α : Type} {levels : Nat} {encodes : α → Bytes → Prop} {read : α → Item}
    {as : List α} {parts : List Bytes} (hparts : List.Forall₂ encodes as parts)
    (hread : ∀ a ∈ as, ∀ part, encodes a part → Codes (item levels) part (read a)) :
    List.Forall₂ (Codes (item levels)) parts (as.map read) := by
  induction hparts with
  | nil => exact .nil
  | cons hpart _ ih =>
    exact .cons (hread _ (by simp) _ hpart) (ih fun a ha => hread a (by simp [ha]))

theorem codes_array {α : Type} {levels : Nat} {encodes : α → Bytes → Prop} {read : α → Item}
    {as : List α} {s : Bytes} (h : EncodesArray encodes as s)
    (hread : ∀ a ∈ as, ∀ part, encodes a part → Codes (item levels) part (read a))
    (hlength : as.length ≤ maxItems) : Codes (item (levels + 1)) s (.array (as.map read)) := by
  intro rest
  obtain ⟨first, parts, hfirst, hparts, rfl⟩ := h
  have hcodes := codes_parts hparts hread
  obtain ⟨b, hb, hitems⟩ := item_leads (levels + 1) (hfirst.leads (by decide)) (by decide)
  obtain ⟨tail, hitem, hargument⟩ := hitems (parts.flatten ++ rest)
  rw [List.append_assoc, hitem]
  simp only [untagged, hargument, hb, inside]
  simp [inner_codes hcodes (by rw [Nat.one_mul, hparts.length_eq]) hlength]

theorem pairs_flatMap (done entries : List (Item × Item)) :
    pairs done (entries.flatMap fun e => [e.1, e.2]) = some (done.reverse ++ entries) := by
  induction entries generalizing done with
  | nil => simp [pairs]
  | cons e entries ih =>
    rw [List.flatMap_cons, List.cons_append, List.cons_append, List.nil_append, pairs, ih]
    simp

theorem codes_pairs {levels : Nat} {entries : List (Bytes × (Bytes → Prop))}
    {pairs : List (Bytes × Bytes)} {values : List Item}
    (hkeys : List.Forall₂
      (fun entry (pair : Bytes × Bytes) => EncodesText entry.1 pair.1 ∧ entry.2 pair.2) entries pairs)
    (hvalues : List.Forall₂
      (fun entry value => ∀ part, entry.2 part → Codes (item levels) part value) entries values) :
    List.Forall₂ (Codes (item levels)) (pairs.flatMap fun pair => [pair.1, pair.2])
      ((entries.zipWith (fun entry value => (Item.text [entry.1], value)) values).flatMap
        fun e => [e.1, e.2]) := by
  induction hkeys generalizing values with
  | nil =>
    cases hvalues
    exact .nil
  | cons hpair _ ih =>
    cases hvalues with
    | cons hvalue hvalues =>
      exact .cons (codes_text levels hpair.1) (.cons (hvalue _ hpair.2) (ih hvalues))

theorem flatMap_pairs (pairs : List (Bytes × Bytes)) :
    (pairs.flatMap fun pair => pair.1 ++ pair.2) =
      (pairs.flatMap fun pair => [pair.1, pair.2]).flatten := by
  induction pairs with
  | nil => rfl
  | cons pair pairs ih => simp [ih]

theorem codes_map (levels : Nat) (values : List Item) {entries : List (Bytes × (Bytes → Prop))}
    {s : Bytes} (h : EncodesMap entries s)
    (hvalues : List.Forall₂
      (fun entry value => ∀ part, entry.2 part → Codes (item levels) part value) entries values)
    (hlength : entries.length ≤ maxItems) :
    Codes (item (levels + 1)) s
      (.map (entries.zipWith (fun entry value => (Item.text [entry.1], value)) values)) := by
  intro rest
  obtain ⟨first, pairs, hfirst, hkeys, rfl⟩ := h
  have hcount : (pairs.flatMap fun pair => [pair.1, pair.2]).length = 2 * entries.length := by
    simp [List.length_flatMap, Nat.mul_comm, hkeys.length_eq]
  obtain ⟨b, hb, hread⟩ := item_leads (levels + 1) (hfirst.leads (by decide)) (by decide)
  obtain ⟨tail, hitem, hargument⟩ :=
    hread ((pairs.flatMap fun pair => [pair.1, pair.2]).flatten ++ rest)
  rw [List.append_assoc, flatMap_pairs, hitem]
  simp only [untagged, hargument, hb, inside]
  simp [inner_codes (codes_pairs hkeys hvalues) hcount hlength, pairs_flatMap]

theorem decode_of_codes {s : Bytes} {i : Item} (h : Codes (item maxLevels) s i) :
    decode s = some i := by
  have hread := h []
  rw [List.append_nil] at hread
  rw [decode, hread]

end ClassForge.Cbor
