import ClassForge.Proofs.TextRoundTrip

/-! A text as the sequence of its pieces. The bytes of the pieces are the bytes of the text, so
only stray bytes are replaced in a text, and a valid text has none. -/

namespace ClassForge.Utf8

theorem ofNat_payload {b : UInt8} (h : isContinuation b = true) :
    payload b < 64 ∧ UInt8.ofNat (payload b + 128) = b := by
  have hall : ∀ b : UInt8, isContinuation b = true →
      payload b < 64 ∧ UInt8.ofNat (payload b + 128) = b := by decide +kernel
  exact hall b h

section Widths

variable {a b₁ b₂ b₃ : UInt8} {c : Char}

theorem utf8EncodeChar_two (ha : (a &&& 0xe0 == 0xc0) = true) (hb : isContinuation b₁ = true)
    (hc : c.val.toNat = (a &&& 0x1f).toNat * 64 + payload b₁) (hle : 0x80 ≤ c.val.toNat) :
    String.utf8EncodeChar c = [a, b₁] := by
  have hlead : ∀ a : UInt8, (a &&& 0xe0 == 0xc0) = true →
      (a &&& 0x1f).toNat < 32 ∧ UInt8.ofNat ((a &&& 0x1f).toNat + 192) = a := by decide +kernel
  obtain ⟨hlt, hlead⟩ := hlead a ha
  obtain ⟨hlt₁, hb₁⟩ := ofNat_payload hb
  have h₁ : c.val.toNat / 64 % 32 = (a &&& 0x1f).toNat := by omega
  have h₂ : c.val.toNat % 64 = payload b₁ := by omega
  simp only [String.utf8EncodeChar]
  rw [if_neg (by omega), if_pos (by omega), h₁, h₂, hlead, hb₁]

theorem utf8EncodeChar_three (ha : (a &&& 0xf0 == 0xe0) = true) (hb₁ : isContinuation b₁ = true)
    (hb₂ : isContinuation b₂ = true)
    (hc : c.val.toNat = ((a &&& 0x0f).toNat * 64 + payload b₁) * 64 + payload b₂)
    (hle : 0x800 ≤ c.val.toNat) : String.utf8EncodeChar c = [a, b₁, b₂] := by
  have hlead : ∀ a : UInt8, (a &&& 0xf0 == 0xe0) = true →
      (a &&& 0x0f).toNat < 16 ∧ UInt8.ofNat ((a &&& 0x0f).toNat + 224) = a := by decide +kernel
  obtain ⟨hlt, hlead⟩ := hlead a ha
  obtain ⟨hlt₁, hb₁⟩ := ofNat_payload hb₁
  obtain ⟨hlt₂, hb₂⟩ := ofNat_payload hb₂
  have h₁ : c.val.toNat / 4096 % 16 = (a &&& 0x0f).toNat := by omega
  have h₂ : c.val.toNat / 64 % 64 = payload b₁ := by omega
  have h₃ : c.val.toNat % 64 = payload b₂ := by omega
  simp only [String.utf8EncodeChar]
  rw [if_neg (by omega), if_neg (by omega), if_pos (by omega), h₁, h₂, h₃, hlead, hb₁, hb₂]

theorem utf8EncodeChar_four (ha : (a &&& 0xf8 == 0xf0) = true) (hb₁ : isContinuation b₁ = true)
    (hb₂ : isContinuation b₂ = true) (hb₃ : isContinuation b₃ = true)
    (hc : c.val.toNat =
      (((a &&& 0x07).toNat * 64 + payload b₁) * 64 + payload b₂) * 64 + payload b₃)
    (hle : 0x10000 ≤ c.val.toNat) : String.utf8EncodeChar c = [a, b₁, b₂, b₃] := by
  have hlead : ∀ a : UInt8, (a &&& 0xf8 == 0xf0) = true →
      (a &&& 0x07).toNat < 8 ∧ UInt8.ofNat ((a &&& 0x07).toNat + 240) = a := by decide +kernel
  obtain ⟨hlt, hlead⟩ := hlead a ha
  obtain ⟨hlt₁, hb₁⟩ := ofNat_payload hb₁
  obtain ⟨hlt₂, hb₂⟩ := ofNat_payload hb₂
  obtain ⟨hlt₃, hb₃⟩ := ofNat_payload hb₃
  have h₁ : c.val.toNat / 262144 % 8 = (a &&& 0x07).toNat := by omega
  have h₂ : c.val.toNat / 4096 % 64 = payload b₁ := by omega
  have h₃ : c.val.toNat / 64 % 64 = payload b₂ := by omega
  have h₄ : c.val.toNat % 64 = payload b₃ := by omega
  simp only [String.utf8EncodeChar]
  rw [if_neg (by omega), if_neg (by omega), if_neg (by omega), h₁, h₂, h₃, h₄, hlead, hb₁, hb₂,
    hb₃]

end Widths

/-- A character that a text starts with is written in the bytes that it was read from. -/
theorem bytes_of_first? {a : UInt8} {rest : Bytes} {c : Char} {more : Nat}
    (h : first? (a :: rest) = some (c, more)) :
    String.utf8EncodeChar c = a :: rest.take more := by
  have key {least n k : Nat} (hs : (scalar? least n).map (·, k) = some (c, more)) :
      c.val.toNat = n ∧ least ≤ c.val.toNat ∧ more = k := by
    obtain ⟨c', hscalar, he⟩ := Option.map_eq_some_iff.mp hs
    obtain ⟨rfl, rfl⟩ := Prod.mk.inj he
    obtain ⟨hle, hc⟩ := scalar?_eq_some hscalar
    exact ⟨hc, hle.trans hc.ge, rfl⟩
  by_cases hascii : a < 0x80
  · obtain ⟨c', hfirst, hbytes⟩ := first?_ascii hascii rest
    rw [hfirst] at h
    cases h
    rw [hbytes, List.take_zero]
  -- Else the first byte tells how many bytes the character has.
  simp only [first?, hascii, if_false] at h
  split at h
  · next ha =>
    split at h
    · split at h
      · next hb =>
        obtain ⟨hc, hle, rfl⟩ := key h
        exact utf8EncodeChar_two ha hb hc hle
      · cases h
    · cases h
  split at h
  · next ha =>
    split at h
    · split at h
      · next hb =>
        rw [Bool.and_eq_true] at hb
        obtain ⟨hc, hle, rfl⟩ := key h
        exact utf8EncodeChar_three ha hb.1 hb.2 hc hle
      · cases h
    · cases h
  split at h
  · next ha =>
    split at h
    · split at h
      · next hb =>
        simp only [Bool.and_eq_true] at hb
        obtain ⟨hc, hle, rfl⟩ := key h
        exact utf8EncodeChar_four ha hb.1.1 hb.1.2 hb.2 hc hle
      · cases h
    · cases h
  · cases h

theorem flatMap_bytes_collect (skip : Nat) (s : Bytes) :
    (collect [] skip s).flatMap Piece.bytes = s.drop skip := by
  induction s generalizing skip with
  | nil => simp [collect]
  | cons a rest ih =>
    cases skip with
    | succ skip => exact ih skip
    | zero =>
      simp only [collect]
      split
      · next c more hfirst =>
        rw [collect_append, List.flatMap_append, ih more]
        simp [Piece.bytes, bytes_of_first? hfirst]
      · rw [collect_append, List.flatMap_append, ih 0]
        simp [Piece.bytes]

/-- The pieces of a text are the text, one after the other. -/
theorem flatMap_bytes_pieces (s : Bytes) : (pieces s).flatMap Piece.bytes = s :=
  flatMap_bytes_collect 0 s

theorem repair_eq (s : Bytes) :
    repair s = (pieces s).flatMap fun piece => String.utf8EncodeChar piece.char := by
  simp only [repair, encode, chars, List.flatMap_map]

theorem repair_of_isValid {s : Bytes} (h : isValid s = true) : repair s = s := by
  rw [isValid, List.all_eq_true] at h
  conv_rhs => rw [← flatMap_bytes_pieces s]
  rw [repair_eq]
  refine List.flatMap_congr fun piece hpiece => ?_
  cases piece with
  | scalar c => rfl
  | stray b => exact absurd (h _ hpiece) (by simp [Piece.isScalar])

end ClassForge.Utf8
