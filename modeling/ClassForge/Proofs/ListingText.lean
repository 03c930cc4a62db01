import ClassForge.Proofs.StructuralValidity
import ClassForge.Proofs.TextRepair

/-! The listing of emitted code. Quoting makes its lines valid texts, whatever bytes the literals of
the program hold, and the limits of the class file bound their lengths and their number. -/

namespace ClassForge

/-- A valid text of at most `n` bytes. -/
structure ShortText (n : Nat) (s : Bytes) : Prop where
  valid : Utf8.isValid s = true
  length : s.length ≤ n

namespace Utf8

theorem isValid_append {s t : Bytes} (hs : isValid s = true) (ht : isValid t = true) :
    isValid (s ++ t) = true := by
  obtain ⟨cs, rfl⟩ := isValid_iff.mp hs
  obtain ⟨ds, rfl⟩ := isValid_iff.mp ht
  exact isValid_iff.mpr ⟨cs ++ ds, by simp [encode]⟩

theorem isValid_of_isAscii {s : Bytes} (h : s.isAscii = true) : isValid s = true :=
  isValid_iff.mpr ⟨chars s, (repair_of_isAscii h).symm⟩

end Utf8

namespace ShortText

variable {m n : Nat} {s t : Bytes}

theorem append (hs : ShortText m s) (ht : ShortText n t) : ShortText (m + n) (s ++ t) := by
  refine ⟨Utf8.isValid_append hs.valid ht.valid, ?_⟩
  rw [List.length_append]
  exact Nat.add_le_add hs.length ht.length

theorem mono (h : ShortText m s) (hle : m ≤ n) : ShortText n s :=
  ⟨h.valid, h.length.trans hle⟩

theorem ofAscii (h : s.isAscii = true) (hlength : s.length ≤ n) : ShortText n s :=
  ⟨Utf8.isValid_of_isAscii h, hlength⟩

theorem char (c : Char) : ShortText 4 (String.utf8EncodeChar c) := by
  refine ⟨Utf8.isValid_iff.mpr ⟨[c], by simp [Utf8.encode]⟩, ?_⟩
  rw [String.length_utf8EncodeChar]
  exact Char.utf8Size_le_four c

theorem hex (width k : Nat) : ShortText width (Bytes.hex width k) := by
  have hdigit : ∀ d < 16, Bytes.isAscii [Bytes.hexDigit d] = true := by decide
  induction width generalizing k with
  | zero => exact .ofAscii rfl le_rfl
  | succ width ih =>
    exact (ih (k / 16)).append (.ofAscii (hdigit (k % 16) (Nat.mod_lt k (by omega))) le_rfl)

theorem flatMap {α : Type} {f : α → Bytes} (h : ∀ a, ShortText n (f a)) (as : List α) :
    ShortText (n * as.length) (as.flatMap f) := by
  induction as with
  | nil => exact .ofAscii rfl le_rfl
  | cons a as ih =>
    rw [List.flatMap_cons, List.length_cons, Nat.mul_succ, Nat.add_comm]
    exact (h a).append ih

end ShortText

namespace Quoted

theorem shortText_escape (mark c : Char) : ShortText 10 (escape mark c) := by
  have hslash : ShortText 1 ("\\" : Bytes) := .ofAscii (by decide) (by decide)
  by_cases hmark : (c == mark || c == '\\') = true
  · rw [escape, if_pos hmark]
    exact (hslash.append (.char c)).mono (by omega)
  rw [escape, if_neg hmark]
  cases shortEscape? c with
  | some letter => exact (hslash.append (.char letter)).mono (by omega)
  | none =>
    have hlead {lead : Bytes} (h : lead.isAscii = true) (hlength : lead.length ≤ 2) {width : Nat}
        (hwidth : width ≤ 8) : ShortText 10 (lead ++ Bytes.hex width c.toNat) :=
      ((ShortText.ofAscii h hlength).append (.hex width c.toNat)).mono (by omega)
    simp only
    split
    · exact (ShortText.char c).mono (by omega)
    split
    · exact hlead (by decide) (by decide) (by omega)
    split
    · exact hlead (by decide) (by decide) (by omega)
    · exact hlead (by decide) (by decide) le_rfl

theorem shortText_piece (p : Utf8.Piece) : ShortText 10 (piece p) := by
  cases p with
  | scalar c => exact shortText_escape '"' c
  | stray b =>
    have hlead : ShortText 2 ("\\x" : Bytes) := .ofAscii (by decide) (by decide)
    exact (hlead.append (.hex 2 b.toNat)).mono (by omega)

theorem shortText_text (s : Bytes) : ShortText (10 * (Utf8.pieces s).length + 2) (text s) := by
  have hquote : ShortText 1 ("\"" : Bytes) := .ofAscii (by decide) (by decide)
  have hall := (hquote.append (.flatMap shortText_piece (Utf8.pieces s))).append hquote
  exact hall.mono (by omega)

end Quoted

namespace ModifiedUtf8

theorem encodeChar_ne_nil (c : Char) : encodeChar c ≠ [] := by
  simp only [encodeChar]
  split
  · simp
  split
  · simp
  split
  · simp [encodeTriple]
  · simp [encodeTriple]

theorem length_pieces_le (s : Bytes) : (Utf8.pieces s).length ≤ (encode s).length := by
  rw [encode, Utf8.chars]
  induction Utf8.pieces s with
  | nil => simp
  | cons p pieces ih =>
    have hp := List.length_pos_iff.mpr (encodeChar_ne_nil p.char)
    simp only [List.map_cons, List.flatMap_cons, List.length_append, List.length_cons]
    omega

theorem shortText_of_isValid {s : Bytes} (h : Utf8.isValid s = true)
    (hs : (encode s).length ≤ 65535) : ShortText 262140 s := by
  have hchars := ShortText.flatMap ShortText.char (Utf8.chars s)
  have htext : (Utf8.chars s).flatMap String.utf8EncodeChar = s := Utf8.repair_of_isValid h
  have hlength := length_pieces_le s
  rw [htext, Utf8.chars, List.length_map] at hchars
  exact hchars.mono (by omega)

end ModifiedUtf8

namespace Decimal

theorem shortText_ofNat {n : Nat} (h : n < 10000000000) : ShortText 10 (ofNat n) := by
  have hdigits : (ofNat n).isAscii = true := by
    refine List.all_eq_true.mpr fun d hd => ?_
    have hdigit := List.all_eq_true.mp (isDigit_ofNat n) d hd
    simp only [Bytes.isDigit, Bool.and_eq_true, decide_eq_true_eq, UInt8.le_iff_toNat_le] at hdigit
    rw [decide_eq_true_eq, UInt8.lt_iff_toNat_lt]
    exact lt_of_le_of_lt hdigit.2 (by decide : (0x39 : UInt8).toNat < (0x80 : UInt8).toNat)
  refine ⟨Utf8.isValid_of_isAscii hdigits, ?_⟩
  rw [ofNat, List.length_map]
  exact Nat.toDigits_length 10 n 10 (by omega) (by omega)

theorem shortText_ofInt {n : Int} (h : n.natAbs < 10000000000) : ShortText 11 (ofInt n) := by
  have hsign : ShortText 1 ("-" : Bytes) := .ofAscii (by decide) (by decide)
  rw [ofInt]
  split
  · exact (hsign.append (shortText_ofNat h)).mono (by omega)
  · exact (shortText_ofNat h).mono (by omega)

end Decimal

theorem Label.shortText_name {label : Label} (h : label.number ≤ 65535) :
    ShortText 11 label.name := by
  have hmark : ShortText 1 ("L" : Bytes) := .ofAscii (by decide) (by decide)
  exact (hmark.append (Decimal.shortText_ofNat (by omega))).mono le_rfl

/-- What bounds the line of an instruction: its text fits a pool entry, and the number of its label
two bytes. -/
def Instruction.HasShortLine : Instruction → Prop
  | pushText text => ConstantPool.Fitting text
  | jump _ label | mark label => label.number ≤ 65535
  | _ => True

namespace Emission

variable {slots : Nat} {i : Instruction}

/-- The bytes of every line are bounded by the longest text that fits a pool entry. -/
theorem Operation.shortText_render (h : Operation slots i) (hslots : slots ≤ 65535)
    (hline : i.HasShortLine) : ShortText 655357 i.render := by
  have htab : ShortText 1 ("\t" : Bytes) := .ofAscii (by decide) (by decide)
  have hspace : ShortText 1 (" " : Bytes) := .ofAscii (by decide) (by decide)
  cases h with
  | pushInt value =>
    have hpush : ShortText 6 ("\tpush " : Bytes) := .ofAscii (by decide) (by decide)
    have hlow := value.le_toInt
    have hhigh := value.toInt_lt
    exact (hpush.append (Decimal.shortText_ofInt (by omega))).mono (by omega)
  | pushText text =>
    have hldc : ShortText 5 ("\tldc " : Bytes) := .ofAscii (by decide) (by decide)
    have hpieces := (ModifiedUtf8.length_pieces_le text).trans hline
    exact (hldc.append (Quoted.shortText_text text)).mono (by omega)
  | @access op slot hslot =>
    have hname : ShortText 6 op.name := by
      cases op <;> exact .ofAscii (by decide) (by decide)
    have hslot' : ShortText 11 (Decimal.ofInt slot) := Decimal.shortText_ofInt (by omega)
    exact (((htab.append hname).append hspace).append hslot').mono (by omega)
  | arithmetic op =>
    cases op <;> exact (ShortText.ofAscii (n := 5) (by decide) (by decide)).mono (by omega)
  | println type =>
    cases type <;> exact (ShortText.ofAscii (n := 70) (by decide) (by decide)).mono (by omega)
  | next type =>
    cases type <;> exact (ShortText.ofAscii (n := 70) (by decide) (by decide)).mono (by omega)
  | jump op label =>
    have hname : ShortText 9 op.opcode.name := by
      cases op with
      | always => exact .ofAscii (by decide) (by decide)
      | when relation => cases relation <;> exact .ofAscii (by decide) (by decide)
    have hlabel := Label.shortText_name hline
    exact (((htab.append hname).append hspace).append hlabel).mono (by omega)
  | mark label =>
    have hcolon : ShortText 1 (":" : Bytes) := .ofAscii (by decide) (by decide)
    exact ((Label.shortText_name hline).append hcolon).mono (by omega)
  | _ => exact (ShortText.ofAscii (n := 70) (by decide) (by decide)).mono (by omega)

end Emission

/-! The number of the lines. Every instruction takes a byte of the body, and there are no more labels
than jumps. -/

/-- The instructions other than marks are no more than the bytes they take. -/
theorem Layout.Arranged.countP_le {pool : ConstantPool} {position length : Nat}
    {instructions : List Instruction} {placements : List Placement}
    (h : Layout.Arranged pool position instructions placements length) :
    position + instructions.countP (fun i => !i.isMark) ≤ length := by
  induction h with
  | nil position => simp
  | @cons position index length i rest placements hencode hrefers hrest ih =>
    rw [List.countP_cons]
    split
    · next hmark =>
      have hwidth := i.width_pos (by simpa using hmark) index
      omega
    · omega

namespace Code

variable {code : Code}

def markedNumber? : Instruction → Option Nat
  | .mark label => some label.number
  | _ => none

theorem eq_mark_of_markedNumber? {i : Instruction} {n : Nat} (h : markedNumber? i = some n) :
    ∃ label : Label, i = .mark label ∧ label.number = n := by
  cases i with
  | mark label => exact ⟨label, rfl, Option.some.inj h⟩
  | _ => cases h

theorem countP_isMark (is : List Instruction) :
    is.countP Instruction.isMark = (is.filterMap markedNumber?).length := by
  have hsome : Instruction.isMark = fun i => (markedNumber? i).isSome := by
    funext i
    cases i <;> rfl
  rw [List.length_filterMap_eq_countP, hsome]

/-- The marks have different labels of the sequence, so they are no more than its labels. -/
theorem Labelled.countP_isMark_le (h : code.Labelled) :
    code.entries.toList.countP Instruction.isMark ≤ code.places.size := by
  have hmark {k : Nat} {n : Nat} (hk : k < code.entries.toList.length)
      (hn : markedNumber? code.entries.toList[k] = some n) :
      n < code.places.size ∧ code.place? ⟨code.serial, n⟩ = some k := by
    obtain ⟨label, hlabel, rfl⟩ := eq_mark_of_markedNumber? hn
    have hentry : code.entries[k]? = some (.mark label) := by
      rw [← hlabel, ← Array.getElem?_toList]
      exact List.getElem?_eq_getElem hk
    obtain ⟨howns, hplace⟩ := h.marks hentry
    exact ⟨((owns_iff _ _).mp howns).2, hplace⟩
  have hnodup : (code.entries.toList.filterMap markedNumber?).Nodup := by
    rw [List.Nodup, List.pairwise_filterMap, List.pairwise_iff_getElem]
    rintro j k hj hk hlt n hn n' hn' rfl
    have hsame := (hmark hj hn).2.symm.trans (hmark hk hn').2
    exact absurd (Option.some.inj hsame) hlt.ne
  have hsubset : code.entries.toList.filterMap markedNumber? ⊆ List.range code.places.size := by
    intro n hn
    obtain ⟨i, hi, hn⟩ := List.mem_filterMap.mp hn
    obtain ⟨k, hk, rfl⟩ := List.getElem_of_mem hi
    exact List.mem_range.mpr (hmark hk hn).1
  have hle := (List.subperm_of_subset hnodup hsubset).length_le
  rwa [List.length_range, ← countP_isMark] at hle

theorem jumps_le_countP (code : Code) :
    code.jumps ≤ code.entries.toList.countP (fun i => !i.isMark) := by
  rw [jumps, ← Array.countP_toList]
  refine List.countP_mono_left fun i _ hi => ?_
  cases i with
  | jump op label => rfl
  | _ => cases hi

end Code

namespace Program.Emits

variable {p : Program} {writer : ClassWriter} {table : SymbolTable} {context : Context}
  {pool : ConstantPool} {placements : Array Placement} {length : Nat}

theorem labels_le (h : p.Emits writer table context)
    (harranged : Layout.Arranged pool 0 context.finished.entries.toList placements.toList length) :
    context.code.places.size ≤ length := by
  have hjumps := h.emitted.fragment.jumps
  have hnone : ({} : Code).jumps = 0 := rfl
  have hfinished : context.finished.jumps = context.code.jumps := by
    rw [Context.finished, Code.jumps_push]
    rfl
  have hplain := context.finished.jumps_le_countP
  have hbytes := harranged.countP_le
  simp only [hnone, Array.size_empty] at hjumps
  omega

theorem length_listing_le (h : p.Emits writer table context)
    (harranged : Layout.Arranged pool 0 context.finished.entries.toList placements.toList length) :
    context.finished.listing.length ≤ 2 * length := by
  have hlabels := h.labels_le harranged
  have hbytes := harranged.countP_le
  have hmarks := (h.labelled.push_plain (i := .simple Opcode.returnVoid.byte) rfl).countP_isMark_le
  have hall := List.length_eq_countP_add_countP Instruction.isMark (l := context.finished.entries.toList)
  simp only [Code.listing, List.length_map, Context.finished, Code.places_push, decide_not,
    Bool.decide_eq_true] at *
  omega

end Program.Emits

end ClassForge
