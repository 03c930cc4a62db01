import Mathlib
import ClassForge.Text.Decimal
import ClassForge.Text.ModifiedUtf8

/-! Texts and numbers through their encodings and back. The class file encoding gives a text with
its stray bytes replaced, and only an ASCII text reads back as an ASCII text. -/

namespace ClassForge

namespace ModifiedUtf8

/-- The 16-bit units of a character. -/
def charUnits (c : Char) : List Nat :=
  if c.toNat < 0x10000 then [c.toNat]
  else [0xd800 + (c.toNat - 0x10000) / 1024, 0xdc00 + (c.toNat - 0x10000) % 1024]

theorem payload_continuation (k : Nat) (hk : k < 64) : Utf8.payload (0x80 ||| k.toUInt8) = k := by
  revert k
  decide

theorem lead_two (k : Nat) (hk : k < 32) :
    ¬ (0xc0 ||| k.toUInt8 : UInt8) < 0x80 ∧
    ((0xc0 ||| k.toUInt8 : UInt8) &&& 0xe0 == 0xc0) = true ∧
    ((0xc0 ||| k.toUInt8 : UInt8) &&& 0x1f).toNat = k := by
  revert k
  decide

theorem lead_three (k : Nat) (hk : k < 16) :
    ¬ (0xe0 ||| k.toUInt8 : UInt8) < 0x80 ∧
    ((0xe0 ||| k.toUInt8 : UInt8) &&& 0xe0 == 0xc0) = false ∧
    ((0xe0 ||| k.toUInt8 : UInt8) &&& 0xf0 == 0xe0) = true ∧
    ((0xe0 ||| k.toUInt8 : UInt8) &&& 0x0f).toNat = k := by
  revert k
  decide

theorem collectUnits_encodeTriple {n : Nat} (hn : n < 0x10000) (done : List Nat) (position : Nat)
    (rest : Bytes) :
    collectUnits done position (encodeTriple n ++ rest) =
      collectUnits (n :: done) (position + 3) rest := by
  obtain ⟨h1, h2, h3, h4⟩ := lead_three (n / 4096) (by omega)
  have hm := payload_continuation (n / 64 % 64) (by omega)
  have hl := payload_continuation (n % 64) (by omega)
  simp only [encodeTriple, List.cons_append, List.nil_append, collectUnits, h1, h2, h3, h4, hm, hl,
    if_false, if_true, Bool.false_eq_true]
  have hv : (n / 4096 * 64 + n / 64 % 64) * 64 + n % 64 = n := by omega
  rw [hv]

theorem collectUnits_encodeChar (c : Char) (done : List Nat) (position : Nat) (rest : Bytes) :
    ∃ position', collectUnits done position (encodeChar c ++ rest) =
      collectUnits ((charUnits c).reverse ++ done) position' rest := by
  have hc : c.toNat < 0x110000 := by
    have := c.valid
    simp only [UInt32.isValidChar, Nat.isValidChar] at this
    change c.val.toNat < _
    omega
  by_cases h1 : c.toNat ≠ 0 ∧ c.toNat < 0x80
  · have hb : c.toNat.toUInt8 < 0x80 ∧ c.toNat.toUInt8.toNat = c.toNat := by
      simp only [UInt8.lt_iff_toNat_lt, UInt8.toNat_ofNat', Nat.toUInt8]
      have : (0x80 : UInt8).toNat = 128 := rfl
      omega
    refine ⟨position + 1, ?_⟩
    simp only [encodeChar, h1, not_false_eq_true, ne_eq, and_self, if_true, charUnits,
      show c.toNat < 0x10000 by omega, List.cons_append, List.nil_append, List.reverse_cons,
      List.reverse_nil]
    rw [collectUnits.eq_def]
    simp only [hb, if_true]
  · by_cases h2 : c.toNat < 0x800
    · obtain ⟨l1, l2, l3⟩ := lead_two (c.toNat / 64) (by omega)
      have hp := payload_continuation (c.toNat % 64) (by omega)
      have hv : c.toNat / 64 * 64 + c.toNat % 64 = c.toNat := by omega
      refine ⟨position + 2, ?_⟩
      simp only [encodeChar, h1, h2, if_false, if_true, List.cons_append, List.nil_append,
        collectUnits, l1, l2, l3, hp, hv, charUnits, show c.toNat < 0x10000 by omega,
        List.reverse_cons, List.reverse_nil]
    · by_cases h3 : c.toNat < 0x10000
      · refine ⟨position + 3, ?_⟩
        simp only [encodeChar, h1, h2, h3, if_false, if_true, charUnits,
          collectUnits_encodeTriple h3, List.reverse_cons, List.reverse_nil, List.cons_append,
          List.nil_append]
      · refine ⟨position + 3 + 3, ?_⟩
        simp only [encodeChar, h1, h2, h3, if_false, charUnits, List.append_assoc]
        rw [collectUnits_encodeTriple (by omega), collectUnits_encodeTriple (by omega)]
        simp

theorem collectUnits_encode (cs : List Char) (done : List Nat) (position : Nat) :
    collectUnits done position (cs.flatMap encodeChar) =
      .ok (done.reverse ++ cs.flatMap charUnits) := by
  induction cs generalizing done position with
  | nil => simp [collectUnits]
  | cons c cs ih =>
    obtain ⟨position', h⟩ := collectUnits_encodeChar c done position (cs.flatMap encodeChar)
    rw [List.flatMap_cons, h, ih]
    simp

theorem charOfNat_toNat (c : Char) : charOfNat c.toNat = c := by
  have hv : c.toNat.isValidChar := c.valid
  have hs : Utf8.scalar? 0 c.toNat = some c := by
    simp only [Utf8.scalar?, Nat.zero_le, true_and, hv, dite_true, Option.some.injEq]
    apply Char.ext
    change c.val.toNat.toUInt32 = c.val
    simp
  simp [charOfNat, hs]

theorem collectChars_charUnits (cs done : List Char) :
    collectChars done (cs.flatMap charUnits) = done.reverse ++ cs := by
  induction cs generalizing done with
  | nil => simp [collectChars]
  | cons c cs ih =>
    have hv : c.toNat.isValidChar := c.valid
    simp only [Nat.isValidChar] at hv
    by_cases hc : c.toNat < 0x10000
    · -- A character below U+10000 is no surrogate, so it is read on its own.
      have hh : isHigh c.toNat = false := by
        simp only [isHigh, Bool.and_eq_false_iff, decide_eq_false_iff_not]
        omega
      have hu : (c :: cs).flatMap charUnits = c.toNat :: cs.flatMap charUnits := by
        simp [charUnits, hc]
      have hstep : collectChars done (c.toNat :: cs.flatMap charUnits) =
          collectChars (c :: done) (cs.flatMap charUnits) := by
        cases cs.flatMap charUnits with
        | nil => simp [collectChars, charOfNat_toNat]
        | cons v rest => simp [collectChars, hh, charOfNat_toNat]
      rw [hu, hstep, ih]
      simp
    · have hh : isHigh (0xd800 + (c.toNat - 0x10000) / 1024) = true := by
        simp only [isHigh, Bool.and_eq_true, decide_eq_true_eq]
        omega
      have hl : isLow (0xdc00 + (c.toNat - 0x10000) % 1024) = true := by
        simp only [isLow, Bool.and_eq_true, decide_eq_true_eq]
        omega
      have hn : 0x10000 + (0xd800 + (c.toNat - 0x10000) / 1024 - 0xd800) * 1024 +
          (0xdc00 + (c.toNat - 0x10000) % 1024 - 0xdc00) = c.toNat := by
        omega
      simp only [List.flatMap_cons, charUnits, hc, if_false, List.cons_append, List.nil_append,
        collectChars, hh, hl, Bool.and_self, if_true, hn, charOfNat_toNat]
      have := ih (c :: done)
      simpa [charUnits] using this

/-- A text that is written and read back has U+FFFD in place of its stray bytes. -/
theorem decode_encode (s : Bytes) : decode (encode s) = .ok (Utf8.repair s) := by
  have hu : units (encode s) = .ok ((Utf8.chars s).flatMap charUnits) := by
    simpa [units, encode] using collectUnits_encode (Utf8.chars s) [] 0
  simp only [decode, hu, Except.map, collectChars_charUnits]
  simp [Utf8.repair]

end ModifiedUtf8

/-- Whether a text has ASCII bytes only. -/
def Bytes.isAscii (s : Bytes) : Bool :=
  s.all (· < 0x80)

namespace Utf8

theorem scalar?_eq_some {least n : Nat} {c : Char} (h : scalar? least n = some c) :
    least ≤ n ∧ c.toNat = n := by
  simp only [scalar?] at h
  split at h
  · rename_i hn
    have hv := hn.2
    simp only [Nat.isValidChar] at hv
    simp only [Option.some.injEq] at h
    refine ⟨hn.1, ?_⟩
    rw [← h]
    change n.toUInt32.toNat = n
    simp only [Nat.toUInt32, UInt32.toNat_ofNat']
    omega
  · simp at h

theorem first?_ascii {a : UInt8} (ha : a < 0x80) (rest : Bytes) :
    ∃ c : Char, first? (a :: rest) = some (c, 0) ∧ String.utf8EncodeChar c = [a] := by
  have hn : a.toNat < 128 := by simpa [UInt8.lt_iff_toNat_lt] using ha
  obtain ⟨c, hs⟩ : ∃ c, scalar? 0 a.toNat = some c := by
    simp only [scalar?]
    rw [dif_pos ⟨Nat.zero_le _, by simp only [Nat.isValidChar]; omega⟩]
    exact ⟨_, rfl⟩
  have hc : c.val.toNat = a.toNat := (scalar?_eq_some hs).2
  refine ⟨c, by simp only [first?, ha, hs, if_true, Option.map_some], ?_⟩
  simp only [String.utf8EncodeChar, hc]
  rw [if_pos (by omega)]
  simp

/-- What starts with a byte that is not ASCII reads as a character that is not ASCII. -/
theorem le_of_first? {a : UInt8} (ha : ¬ a < 0x80) {rest : Bytes} {c : Char} {more : Nat}
    (h : first? (a :: rest) = some (c, more)) : 0x80 ≤ c.toNat := by
  have key : ∀ {least n k : Nat}, 0x80 ≤ least →
      (scalar? least n).map (·, k) = some (c, more) → 0x80 ≤ c.toNat := by
    intro least n k hl hs
    obtain ⟨c', hc, he⟩ := Option.map_eq_some_iff.mp hs
    obtain ⟨rfl, -⟩ := Prod.mk.inj he
    have := scalar?_eq_some hc
    omega
  simp only [first?, ha, if_false] at h
  split at h
  · split at h
    · split at h
      · exact key (by omega) h
      · simp at h
    · simp at h
  · split at h
    · split at h
      · split at h
        · exact key (by omega) h
        · simp at h
      · simp at h
    · split at h
      · split at h
        · split at h
          · exact key (by omega) h
          · simp at h
        · simp at h
      · simp at h

theorem head_utf8EncodeChar {c : Char} (hc : 0x80 ≤ c.toNat) :
    ∃ b ∈ String.utf8EncodeChar c, ¬ b < 0x80 := by
  have hc' : ¬ c.val.toNat ≤ 0x7f := by
    change ¬ c.toNat ≤ 0x7f
    omega
  have hlead : ∀ n, 0x80 ≤ n → n < 256 → ¬ UInt8.ofNat n < 0x80 := by
    intro n h1 h2
    rw [UInt8.lt_iff_toNat_lt, UInt8.toNat_ofNat']
    have : (0x80 : UInt8).toNat = 128 := rfl
    omega
  simp only [String.utf8EncodeChar, hc', if_false]
  split
  · exact ⟨_, List.mem_cons_self, hlead _ (by omega) (by omega)⟩
  · split
    · exact ⟨_, List.mem_cons_self, hlead _ (by omega) (by omega)⟩
    · exact ⟨_, List.mem_cons_self, hlead _ (by omega) (by omega)⟩

theorem collect_append (done : List Piece) (skip : Nat) (s : Bytes) :
    collect done skip s = done.reverse ++ collect [] skip s := by
  induction s generalizing done skip with
  | nil => simp [collect]
  | cons a rest ih =>
    cases skip with
    | succ skip => simp only [collect]; exact ih done skip
    | zero =>
      simp only [collect]
      split
      · rw [ih, ih [_]]
        simp
      · rw [ih, ih [_]]
        simp

theorem repair_cons_ascii {a : UInt8} (ha : a < 0x80) (rest : Bytes) :
    repair (a :: rest) = a :: repair rest := by
  obtain ⟨c, hf, he⟩ := first?_ascii ha rest
  have hp : pieces (a :: rest) = .scalar c :: pieces rest := by
    simp only [pieces, collect, hf]
    rw [collect_append]
    simp
  simp [repair, chars, encode, hp, Piece.char, he]

theorem repair_of_isAscii {s : Bytes} (h : s.isAscii = true) : repair s = s := by
  induction s with
  | nil => rfl
  | cons a rest ih =>
    simp only [Bytes.isAscii, List.all_cons, Bool.and_eq_true, decide_eq_true_eq] at h
    rw [repair_cons_ascii h.1, ih h.2]

/-- Only an ASCII text reads back as an ASCII text. -/
theorem eq_of_repair_isAscii {s t : Bytes} (ht : t.isAscii = true) (h : repair s = t) : s = t := by
  induction s generalizing t with
  | nil => simpa [repair, chars, pieces, collect, encode] using h
  | cons a rest ih =>
    by_cases ha : a < 0x80
    · rw [repair_cons_ascii ha] at h
      subst h
      simp only [Bytes.isAscii, List.all_cons, Bool.and_eq_true, decide_eq_true_eq] at ht
      exact congrArg _ (ih ht.2 rfl)
    · exfalso
      have hc : ∃ c cs, chars (a :: rest) = c :: cs ∧ 0x80 ≤ c.toNat := by
        simp only [chars, pieces, collect]
        split
        · rename_i c more hf
          rw [collect_append]
          exact ⟨c, _, rfl, le_of_first? ha hf⟩
        · rw [collect_append]
          exact ⟨replacement, _, rfl, by decide⟩
      obtain ⟨c, cs, hcs, hge⟩ := hc
      obtain ⟨b, hb, hbn⟩ := head_utf8EncodeChar hge
      have hm : b ∈ t := by
        rw [← h, repair, hcs, encode, List.flatMap_cons]
        exact List.mem_append_left _ hb
      simp only [Bytes.isAscii, List.all_eq_true, decide_eq_true_eq] at ht
      exact hbn (ht b hm)

end Utf8

namespace Decimal

theorem isDigit_ofNat (n : Nat) : (ofNat n).all Bytes.isDigit = true := by
  simp only [ofNat, List.all_map, List.all_eq_true]
  intro c hc
  have hd : c.isDigit = true := Nat.isDigit_of_mem_toDigits (by decide) (by decide) hc
  simp only [Char.isDigit, Bool.and_eq_true, decide_eq_true_eq, ge_iff_le, UInt32.le_iff_toNat_le]
    at hd
  have hlo : 48 ≤ c.toNat := hd.1
  have hhi : c.toNat ≤ 57 := hd.2
  simp only [Function.comp_apply, Bytes.isDigit, Bool.and_eq_true, decide_eq_true_eq,
    UInt8.le_iff_toNat_le, Nat.toUInt8, UInt8.toNat_ofNat']
  have h0 : (0x30 : UInt8).toNat = 48 := rfl
  have h9 : (0x39 : UInt8).toNat = 57 := rfl
  omega

theorem ofNat_ne_nil (n : Nat) : ofNat n ≠ [] := by
  simp [ofNat, Nat.toDigits_ne_nil]

theorem value_map_toUInt8 (cs : List Char) (hcs : ∀ c ∈ cs, c.toNat < 256) (start : Nat) :
    (cs.map fun c => c.toNat.toUInt8).foldl (fun n d => n * 10 + (d.toNat - 0x30)) start =
      Nat.ofDigitChars 10 cs start := by
  induction cs generalizing start with
  | nil => simp
  | cons c cs ih =>
    have hc : c.toNat.toUInt8.toNat = c.toNat := by
      simp only [Nat.toUInt8, UInt8.toNat_ofNat']
      exact Nat.mod_eq_of_lt (hcs c (by simp))
    rw [List.map_cons, List.foldl_cons, hc, ih (fun d hd => hcs d (by simp [hd])),
      Nat.ofDigitChars_cons, Nat.mul_comm start]
    rfl

theorem value_ofNat (n : Nat) : value (ofNat n) = n := by
  have hcs : ∀ c ∈ Nat.toDigits 10 n, c.toNat < 256 := by
    intro c hc
    have hd : c.isDigit = true := Nat.isDigit_of_mem_toDigits (by decide) (by decide) hc
    simp only [Char.isDigit, Bool.and_eq_true, decide_eq_true_eq, UInt32.le_iff_toNat_le] at hd
    have hhi : c.toNat ≤ 57 := hd.2
    omega
  rw [value, ofNat, value_map_toUInt8 _ hcs, Nat.ofDigitChars_ten_toDigits]

theorem isSign_of_isDigit {d : UInt8} (h : Bytes.isDigit d = true) : d ≠ 0x2b ∧ d ≠ 0x2d := by
  constructor
  · rintro rfl
    cases h
  · rintro rfl
    cases h

theorem parse?_sign_append {sign digits : Bytes} (hsign : sign ∈ ([[], "+", "-"] : List Bytes))
    (hne : digits ≠ []) (hdigits : digits.all Bytes.isDigit = true) :
    parse? (sign ++ digits) =
      some (if sign = ("-" : Bytes) then -(value digits : Int) else value digits) := by
  obtain ⟨d, rest, rfl⟩ := List.exists_cons_of_ne_nil hne
  have hd : Bytes.isDigit d = true := by
    rw [List.all_cons, Bool.and_eq_true] at hdigits
    exact hdigits.1
  obtain ⟨hplus, hminus⟩ := isSign_of_isDigit hd
  simp only [List.mem_cons, List.not_mem_nil, or_false] at hsign
  rcases hsign with rfl | rfl | rfl
  · have hhead : ((d :: rest).head? == some 0x2d) = false := by simpa using hminus
    rw [List.nil_append, if_neg (by decide)]
    simp only [parse?]
    split
    · next h => exact absurd (List.cons.inj h).1 hplus
    · next h => exact absurd (List.cons.inj h).1 hminus
    · simp only [List.isEmpty_cons, hdigits, hhead, Bool.not_true, Bool.or_self,
        Bool.false_eq_true, if_false]
  · have hs : ("+" : Bytes) ++ d :: rest = 0x2b :: d :: rest := rfl
    rw [hs, if_neg (by decide)]
    simp [parse?, hdigits]
  · have hs : ("-" : Bytes) ++ d :: rest = 0x2d :: d :: rest := rfl
    rw [hs, if_pos rfl]
    simp [parse?, hdigits]

theorem parse?_ofInt (n : Int) : parse? (ofInt n) = some n := by
  have hne := ofNat_ne_nil n.natAbs
  have hdigits := isDigit_ofNat n.natAbs
  by_cases hn : n < 0
  · have hs : ofInt n = ("-" : Bytes) ++ ofNat n.natAbs := by
      rw [ofInt, if_pos hn]
    rw [hs, parse?_sign_append (by simp) hne hdigits, if_pos rfl, value_ofNat]
    congr 1
    omega
  · have hs : ofInt n = [] ++ ofNat n.natAbs := by
      rw [ofInt, if_neg hn]
      rfl
    rw [hs, parse?_sign_append (by simp) hne hdigits, if_neg (by decide), value_ofNat]
    congr 1
    omega

theorem ofInt_injective {m n : Int} (h : ofInt m = ofInt n) : m = n := by
  have hm := parse?_ofInt m
  rw [h, parse?_ofInt] at hm
  exact (Option.some.inj hm).symm

/-- The text is an optional sign and digits, and stands for a number of 32 bits. -/
def IsInt32 (s : Bytes) : Prop :=
  ∃ sign digits : Bytes, s = sign ++ digits ∧ sign ∈ ([[], "+", "-"] : List Bytes) ∧ digits ≠ [] ∧
    digits.all Bytes.isDigit = true ∧
    value digits ≤ if sign = ("-" : Bytes) then 2147483648 else 2147483647

theorem parse?_eq_some {s : Bytes} {n : Int} (h : parse? s = some n) :
    ∃ sign digits : Bytes, s = sign ++ digits ∧ sign ∈ ([[], "+", "-"] : List Bytes) ∧
      digits ≠ [] ∧ digits.all Bytes.isDigit = true := by
  have key {digits : Bytes} {x : Option Int}
      (h : (if (digits.isEmpty || !digits.all Bytes.isDigit) = true then none else x) = some n) :
      digits ≠ [] ∧ digits.all Bytes.isDigit = true := by
    split at h
    · cases h
    · next hdigits => simpa [not_or] using hdigits
  simp only [parse?] at h
  split at h
  · exact ⟨"+", _, rfl, by simp, key h⟩
  · exact ⟨"-", _, rfl, by simp, key h⟩
  · exact ⟨[], s, rfl, by simp, key h⟩

theorem isSome_parseInt32?_iff (s : Bytes) : (parseInt32? s).isSome = true ↔ IsInt32 s := by
  constructor
  · intro h
    simp only [parseInt32?] at h
    split at h
    · next n hn =>
      split at h
      · next hbound =>
        obtain ⟨sign, digits, rfl, hsign, hne, hdigits⟩ := parse?_eq_some hn
        refine ⟨sign, digits, rfl, hsign, hne, hdigits, ?_⟩
        rw [parse?_sign_append hsign hne hdigits] at hn
        cases hn
        split at hbound
        · next hminus =>
          rw [if_pos hminus]
          omega
        · next hminus =>
          rw [if_neg hminus]
          omega
      · cases h
    · cases h
  · rintro ⟨sign, digits, rfl, hsign, hne, hdigits, hbound⟩
    simp only [parseInt32?, parse?_sign_append hsign hne hdigits]
    rw [if_pos]
    · rfl
    · split at hbound
      · next hminus =>
        rw [if_pos hminus]
        omega
      · next hminus =>
        rw [if_neg hminus]
        omega

end Decimal

end ClassForge
