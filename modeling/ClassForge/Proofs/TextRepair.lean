import ClassForge.Proofs.TextPieces

/-! Any text through the encoding of class files and back. A character is found again in the bytes it
is written in, so a text splits in one way only into characters and stray bytes, and only the stray
bytes are lost. -/

namespace ClassForge

namespace Utf8

/-- The second text is the first one with U+FFFD for each byte that is no part of a character. -/
inductive Repaired : Bytes → Bytes → Prop
  | nil : Repaired [] []
  | scalar (c : Char) {s t : Bytes} (h : Repaired s t) :
      Repaired (String.utf8EncodeChar c ++ s) (String.utf8EncodeChar c ++ t)
  | stray {b : UInt8} {s t : Bytes} (hb : ∀ c, ¬ String.utf8EncodeChar c <+: b :: s)
      (h : Repaired s t) : Repaired (b :: s) (String.utf8EncodeChar replacement ++ t)

theorem scalar?_toNat {least : Nat} {c : Char} (h : least ≤ c.val.toNat) :
    scalar? least c.val.toNat = some c := by
  have hv : c.val.toNat.isValidChar := c.valid
  simp only [scalar?, h, hv, and_self, dite_true, Option.some.injEq]
  apply Char.ext
  simp

theorem continuation_ofNat : ∀ k < 64, isContinuation (UInt8.ofNat (k + 128)) = true ∧
    payload (UInt8.ofNat (k + 128)) = k := by
  decide

/-- The character is found in the bytes that it is written in, whatever follows them. -/
def Found (c : Char) : Prop :=
  ∃ a more, String.utf8EncodeChar c = a :: more ∧
    ∀ rest, first? (a :: (more ++ rest)) = some (c, more.length)

section Widths

variable {c : Char}

theorem found_one (hle : c.val.toNat ≤ 0x7f) : Found c := by
  have hbytes : String.utf8EncodeChar c = [UInt8.ofNat c.val.toNat] := if_pos hle
  refine ⟨_, _, hbytes, fun rest => ?_⟩
  have hvalue : (UInt8.ofNat c.val.toNat).toNat = c.val.toNat := by
    rw [UInt8.toNat_ofNat']
    omega
  have hascii : UInt8.ofNat c.val.toNat < 0x80 := by
    rw [UInt8.lt_iff_toNat_lt, hvalue]
    exact Nat.lt_succ_of_le hle
  simp only [first?, hascii, if_true, hvalue, scalar?_toNat (Nat.zero_le _), Option.map_some,
    List.length_nil]

theorem found_two (hlt : 0x80 ≤ c.val.toNat) (hle : c.val.toNat ≤ 0x7ff) : Found c := by
  have hlead : ∀ k < 32, ¬ UInt8.ofNat (k + 192) < 0x80 ∧
      (UInt8.ofNat (k + 192) &&& 0xe0 == 0xc0) = true ∧
      (UInt8.ofNat (k + 192) &&& 0x1f).toNat = k := by decide
  obtain ⟨hascii, hlead, hbits⟩ := hlead (c.val.toNat / 64 % 32) (by omega)
  have hlast := continuation_ofNat (c.val.toNat % 64) (by omega)
  have hbytes : String.utf8EncodeChar c =
      [UInt8.ofNat (c.val.toNat / 64 % 32 + 192), UInt8.ofNat (c.val.toNat % 64 + 128)] :=
    (if_neg (by omega)).trans (if_pos hle)
  refine ⟨_, _, hbytes, fun rest => ?_⟩
  have hvalue : c.val.toNat / 64 % 32 * 64 + c.val.toNat % 64 = c.val.toNat := by omega
  simp only [List.cons_append, List.nil_append, first?, hascii, hlead, hbits, hlast, hvalue,
    if_true, if_false, scalar?_toNat hlt, Option.map_some, List.length_cons, List.length_nil]

theorem found_three (hlt : 0x800 ≤ c.val.toNat) (hle : c.val.toNat ≤ 0xffff) : Found c := by
  have hlead : ∀ k < 16, ¬ UInt8.ofNat (k + 224) < 0x80 ∧
      (UInt8.ofNat (k + 224) &&& 0xe0 == 0xc0) = false ∧
      (UInt8.ofNat (k + 224) &&& 0xf0 == 0xe0) = true ∧
      (UInt8.ofNat (k + 224) &&& 0x0f).toNat = k := by decide
  obtain ⟨hascii, htwo, hlead, hbits⟩ := hlead (c.val.toNat / 4096 % 16) (by omega)
  have hmiddle := continuation_ofNat (c.val.toNat / 64 % 64) (by omega)
  have hlast := continuation_ofNat (c.val.toNat % 64) (by omega)
  have hbytes : String.utf8EncodeChar c =
      [UInt8.ofNat (c.val.toNat / 4096 % 16 + 224), UInt8.ofNat (c.val.toNat / 64 % 64 + 128),
        UInt8.ofNat (c.val.toNat % 64 + 128)] :=
    (if_neg (by omega)).trans ((if_neg (by omega)).trans (if_pos hle))
  refine ⟨_, _, hbytes, fun rest => ?_⟩
  have hvalue : (c.val.toNat / 4096 % 16 * 64 + c.val.toNat / 64 % 64) * 64 + c.val.toNat % 64 =
      c.val.toNat := by omega
  simp only [List.cons_append, List.nil_append, first?, hascii, htwo, hlead, hbits, hmiddle, hlast,
    hvalue, if_true, if_false, Bool.false_eq_true, Bool.and_self, scalar?_toNat hlt,
    Option.map_some, List.length_cons, List.length_nil]

theorem found_four (hlt : 0x10000 ≤ c.val.toNat) : Found c := by
  have hlead : ∀ k < 8, ¬ UInt8.ofNat (k + 240) < 0x80 ∧
      (UInt8.ofNat (k + 240) &&& 0xe0 == 0xc0) = false ∧
      (UInt8.ofNat (k + 240) &&& 0xf0 == 0xe0) = false ∧
      (UInt8.ofNat (k + 240) &&& 0xf8 == 0xf0) = true ∧
      (UInt8.ofNat (k + 240) &&& 0x07).toNat = k := by decide
  obtain ⟨hascii, htwo, hthree, hlead, hbits⟩ := hlead (c.val.toNat / 262144 % 8) (by omega)
  have hsecond := continuation_ofNat (c.val.toNat / 4096 % 64) (by omega)
  have hthird := continuation_ofNat (c.val.toNat / 64 % 64) (by omega)
  have hlast := continuation_ofNat (c.val.toNat % 64) (by omega)
  have hbytes : String.utf8EncodeChar c =
      [UInt8.ofNat (c.val.toNat / 262144 % 8 + 240), UInt8.ofNat (c.val.toNat / 4096 % 64 + 128),
        UInt8.ofNat (c.val.toNat / 64 % 64 + 128), UInt8.ofNat (c.val.toNat % 64 + 128)] :=
    (if_neg (by omega)).trans ((if_neg (by omega)).trans (if_neg (by omega)))
  refine ⟨_, _, hbytes, fun rest => ?_⟩
  have hc : c.val.toNat.isValidChar := c.valid
  have hvalue : ((c.val.toNat / 262144 % 8 * 64 + c.val.toNat / 4096 % 64) * 64 +
      c.val.toNat / 64 % 64) * 64 + c.val.toNat % 64 = c.val.toNat := by
    simp only [Nat.isValidChar] at hc
    omega
  simp only [List.cons_append, List.nil_append, first?, hascii, htwo, hthree, hlead, hbits,
    hsecond, hthird, hlast, hvalue, if_true, if_false, Bool.false_eq_true, Bool.and_self,
    scalar?_toNat hlt, Option.map_some, List.length_cons, List.length_nil]

end Widths

theorem found (c : Char) : Found c := by
  by_cases hone : c.val.toNat ≤ 0x7f
  · exact found_one hone
  by_cases htwo : c.val.toNat ≤ 0x7ff
  · exact found_two (by omega) htwo
  by_cases hthree : c.val.toNat ≤ 0xffff
  · exact found_three (by omega) hthree
  · exact found_four (by omega)

theorem collect_skip (done : List Piece) (word rest : Bytes) :
    collect done word.length (word ++ rest) = collect done 0 rest := by
  induction word with
  | nil => rfl
  | cons b word ih => exact ih

theorem pieces_scalar (c : Char) (s : Bytes) :
    pieces (String.utf8EncodeChar c ++ s) = .scalar c :: pieces s := by
  obtain ⟨a, more, hbytes, hfirst⟩ := found c
  rw [hbytes, List.cons_append, pieces, collect, hfirst s]
  change collect [.scalar c] more.length (more ++ s) = _
  rw [collect_skip, collect_append]
  rfl

theorem first?_stray {b : UInt8} {s : Bytes} (hb : ∀ c, ¬ String.utf8EncodeChar c <+: b :: s) :
    first? (b :: s) = none := by
  cases hfirst : first? (b :: s) with
  | none => rfl
  | some found =>
    obtain ⟨c, more⟩ := found
    have hbytes := bytes_of_first? hfirst
    exact absurd ⟨s.drop more, by rw [hbytes, List.cons_append, List.take_append_drop]⟩ (hb c)

theorem pieces_stray {b : UInt8} {s : Bytes} (hb : ∀ c, ¬ String.utf8EncodeChar c <+: b :: s) :
    pieces (b :: s) = .stray b :: pieces s := by
  rw [pieces, collect, first?_stray hb]
  change collect [.stray b] 0 s = _
  rw [collect_append]
  rfl

/-- A text is a character and a shorter text, or a stray byte and a shorter text. -/
theorem text_induction {P : Bytes → Prop} (nil : P [])
    (scalar : ∀ c s, P s → P (String.utf8EncodeChar c ++ s))
    (stray : ∀ b s, (∀ c, ¬ String.utf8EncodeChar c <+: b :: s) → P s → P (b :: s))
    (s : Bytes) : P s := by
  induction hn : s.length using Nat.strong_induction_on generalizing s with
  | h n ih =>
    subst hn
    cases s with
    | nil => exact nil
    | cons b s =>
      by_cases hb : ∃ c, String.utf8EncodeChar c <+: b :: s
      · obtain ⟨c, rest, hrest⟩ := hb
        obtain ⟨a, more, hbytes, -⟩ := found c
        have hlength : rest.length < (b :: s).length := by
          rw [← hrest, hbytes, List.length_append, List.length_cons]
          omega
        rw [← hrest]
        exact scalar c rest (ih rest.length hlength rest rfl)
      · exact stray b s (not_exists.mp hb) (ih s.length (by simp) s rfl)

theorem repaired_iff {s t : Bytes} : Repaired s t ↔ t = repair s := by
  constructor
  · intro h
    induction h with
    | nil => rfl
    | scalar c _ ih => rw [ih, repair_eq, repair_eq, pieces_scalar, List.flatMap_cons, Piece.char]
    | stray hb _ ih => rw [ih, repair_eq, repair_eq, pieces_stray hb, List.flatMap_cons, Piece.char]
  · rintro rfl
    induction s using text_induction with
    | nil => exact .nil
    | scalar c s ih =>
      rw [repair_eq, pieces_scalar, List.flatMap_cons, ← repair_eq]
      exact .scalar c ih
    | stray b s hb ih =>
      rw [repair_eq, pieces_stray hb, List.flatMap_cons, ← repair_eq]
      exact .stray hb ih

theorem pieces_encode (cs : List Char) : pieces (encode cs) = cs.map .scalar := by
  induction cs with
  | nil => rfl
  | cons c cs ih =>
    rw [encode, List.flatMap_cons, pieces_scalar]
    exact congrArg _ ih

theorem chars_encode (cs : List Char) : chars (encode cs) = cs := by
  rw [chars, pieces_encode, List.map_map]
  exact List.map_id cs

/-- A valid text is one that is written from characters. -/
theorem isValid_iff {s : Bytes} : isValid s = true ↔ ∃ cs, s = encode cs := by
  constructor
  · intro h
    exact ⟨chars s, (repair_of_isValid h).symm⟩
  · rintro ⟨cs, rfl⟩
    simp [isValid, pieces_encode, Piece.isScalar]

end Utf8

namespace ModifiedUtf8

theorem encode_repair (s : Bytes) : encode (Utf8.repair s) = encode s := by
  rw [encode, Utf8.repair, Utf8.chars_encode, encode]

/-- The bytes of an encoded text with their fixed bits, and what the other bits can be. -/
theorem plain_or : ∀ form ∈ ([(0xc0, 32), (0xe0, 16), (0x80, 64)] : List (UInt8 × Nat)),
    ∀ k < form.2, form.1 ||| k.toUInt8 ≠ 0 ∧ form.1 ||| k.toUInt8 < 0xf0 := by
  decide

theorem plain_encodeTriple {n : Nat} (hn : n < 0x10000) :
    ∀ b ∈ encodeTriple n, b ≠ 0 ∧ b < 0xf0 := by
  have hlead := plain_or (0xe0, 16) (by simp) (n / 4096) (by omega)
  have hmiddle := plain_or (0x80, 64) (by simp) (n / 64 % 64) (by omega)
  have hlast := plain_or (0x80, 64) (by simp) (n % 64) (by omega)
  exact List.forall_mem_cons.mpr ⟨hlead, List.forall_mem_cons.mpr ⟨hmiddle,
    List.forall_mem_singleton.mpr hlast⟩⟩

theorem plain_encodeChar (c : Char) : ∀ b ∈ encodeChar c, b ≠ 0 ∧ b < 0xf0 := by
  have hc : c.toNat.isValidChar := c.valid
  simp only [Nat.isValidChar] at hc
  by_cases hone : c.toNat ≠ 0 ∧ c.toNat < 0x80
  · rw [encodeChar, if_pos hone, List.forall_mem_singleton, ne_eq, ← UInt8.toNat_inj,
      UInt8.lt_iff_toNat_lt]
    simp only [Nat.toUInt8, UInt8.toNat_ofNat', UInt8.reduceToNat]
    omega
  by_cases htwo : c.toNat < 0x800
  · have hlead := plain_or (0xc0, 32) (by simp) (c.toNat / 64) (by omega)
    have hlast := plain_or (0x80, 64) (by simp) (c.toNat % 64) (by omega)
    rw [encodeChar, if_neg hone, if_pos htwo]
    exact List.forall_mem_cons.mpr ⟨hlead, List.forall_mem_singleton.mpr hlast⟩
  by_cases hthree : c.toNat < 0x10000
  · rw [encodeChar, if_neg hone, if_neg htwo, if_pos hthree]
    exact plain_encodeTriple hthree
  · rw [encodeChar, if_neg hone, if_neg htwo, if_neg hthree]
    exact List.forall_mem_append.mpr
      ⟨plain_encodeTriple (by omega), plain_encodeTriple (by omega)⟩

theorem plain_encode (s : Bytes) : ∀ b ∈ encode s, b ≠ 0 ∧ b < 0xf0 := by
  intro b hb
  obtain ⟨c, -, hb⟩ := List.mem_flatMap.mp hb
  exact plain_encodeChar c b hb

theorem eq_of_encode_eq {s t : Bytes} (hs : Utf8.isValid s = true) (ht : Utf8.isValid t = true)
    (h : encode s = encode t) : s = t := by
  have hdecoded : decode (encode s) = decode (encode t) := congrArg decode h
  rw [decode_encode, decode_encode, Utf8.repair_of_isValid hs, Utf8.repair_of_isValid ht] at hdecoded
  exact Except.ok.inj hdecoded

/-- An encoded text reads back as the text with its stray bytes replaced, and that text has the same
encoding. A text that is written from characters comes back as it is, and two of them differ in
their encodings. An encoding has neither a zero byte nor one that would lead four bytes. -/
theorem encoding_keeps_characters :
    (∀ s, ∃ t, decode (encode s) = .ok t ∧ encode t = encode s ∧
      ∀ u, Utf8.Repaired s u ↔ u = t) ∧
    (∀ s, Utf8.isValid s = true ↔ ∃ cs, s = Utf8.encode cs) ∧
    (∀ s, Utf8.isValid s = true → decode (encode s) = .ok s) ∧
    (∀ s t, Utf8.isValid s = true → Utf8.isValid t = true → encode s = encode t → s = t) ∧
    ∀ s, ∀ b ∈ encode s, b ≠ 0 ∧ b < 0xf0 := by
  refine ⟨fun s => ?_, fun s => Utf8.isValid_iff, fun s hs => ?_, fun s t => eq_of_encode_eq,
    plain_encode⟩
  · exact ⟨Utf8.repair s, decode_encode s, encode_repair s, fun u => Utf8.repaired_iff⟩
  · rw [decode_encode, Utf8.repair_of_isValid hs]

end ModifiedUtf8

end ClassForge
