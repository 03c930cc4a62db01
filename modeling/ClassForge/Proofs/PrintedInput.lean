import ClassForge.Proofs.InputReads
import ClassForge.Proofs.RuntimeSteps

/-! Printing and reading. What a program prints, given to a program as its input, is read again:
numbers by reads of numbers, and lines by reads of lines. -/

namespace ClassForge

/-- Texts in lines of their own. -/
def Bytes.ofLines (texts : List Bytes) : Bytes :=
  texts.flatMap (· ++ "\n")

theorem Bytes.ofLines_cons (text : Bytes) (texts : List Bytes) :
    ofLines (text :: texts) = text ++ "\n" ++ ofLines texts := rfl

namespace Utf8

/-- The piece of an ASCII byte. -/
def asciiPiece (b : UInt8) : Piece :=
  .scalar (Char.ofNat b.toNat)

theorem pieces_append_of_ascii {s : Bytes} (h : ∀ b ∈ s, b < 0x80) (t : Bytes) :
    pieces (s ++ t) = s.map asciiPiece ++ pieces t := by
  induction s with
  | nil => rfl
  | cons b s ih =>
    have hlt : b.toNat < 0x80 := UInt8.lt_iff_toNat_lt.mp (h b (by simp))
    have hvalid : b.toNat.isValidChar := by
      simp only [Nat.isValidChar]
      omega
    have hchar : (Char.ofNat b.toNat).val.toNat = b.toNat := by
      simp [Char.ofNat, hvalid, Char.ofNatAux]
    have hbytes : String.utf8EncodeChar (Char.ofNat b.toNat) = [b] := by
      simp only [String.utf8EncodeChar, hchar]
      rw [if_pos (by omega), UInt8.ofNat_toNat]
    have hcons : b :: (s ++ t) = String.utf8EncodeChar (Char.ofNat b.toNat) ++ (s ++ t) := by
      rw [hbytes]
      rfl
    rw [List.cons_append, hcons, pieces_scalar, ih fun c hc => h c (by simp [hc])]
    rfl

theorem join_map_asciiPiece {s : Bytes} (h : ∀ b ∈ s, b < 0x80) : join (s.map asciiPiece) = s := by
  have hpieces := pieces_append_of_ascii h []
  rw [List.append_nil] at hpieces
  have hjoin := join_pieces s
  rw [hpieces] at hjoin
  simpa [pieces, collect] using hjoin

end Utf8

namespace Input

open Utf8 (asciiPiece pieces join)

theorem isSpace_of_spells {s : Bytes} {n : Int} (h : Decimal.Spells s n) :
    ∀ p ∈ s.map asciiPiece, p.isSpace = false := by
  have hdigits : ∀ b : UInt8, Bytes.isDigit b = true → (asciiPiece b).isSpace = false := by
    decide +kernel
  intro p hp
  obtain ⟨b, hb, rfl⟩ := List.mem_map.mp hp
  rcases h.cases_of_mem hb with hdigit | rfl | rfl
  · exact hdigits b hdigit
  · decide
  · decide

/-- A number that has a newline behind it, and at most newlines before it, is read. The newline
behind it stays. -/
theorem next_spelled {lead token rest : Bytes} {n : Int32} (hlead : ∀ b ∈ lead, b = 0x0a)
    (h : Decimal.Spells token n.toInt) :
    Meaning.next .integer ⟨lead ++ (token ++ ("\n" ++ rest)), false⟩ =
      .ok (.number n) ⟨"\n" ++ rest, false⟩ := by
  have hascii : ∀ b ∈ lead, b < 0x80 := fun b hb => hlead b hb ▸ by decide
  have hnewline : pieces ("\n" ++ rest) = asciiPiece 0x0a :: pieces rest :=
    Utf8.pieces_append_of_ascii (fun b hb => List.mem_singleton.mp hb ▸ by decide) rest
  have hcut : Cut (lead ++ (token ++ ("\n" ++ rest))) (lead.map asciiPiece)
      (token.map asciiPiece) (pieces ("\n" ++ rest)) := by
    refine ⟨?_, fun p hp => ?_, isSpace_of_spells h, fun _ htoken => ?_, fun p hp => ?_⟩
    · rw [Utf8.pieces_append_of_ascii hascii, Utf8.pieces_append_of_ascii h.lt_of_mem,
        List.append_assoc]
    · obtain ⟨b, hb, rfl⟩ := List.mem_map.mp hp
      rw [hlead b hb]
      decide
    · exact Decimal.Spells.ne_nil h (List.map_eq_nil_iff.mp htoken)
    · rw [hnewline] at hp
      cases hp
      decide
  have htoken : join (token.map asciiPiece) = token := Utf8.join_map_asciiPiece h.lt_of_mem
  have htakes := Takes.number hcut (htoken.symm ▸ h)
  rw [Utf8.join_pieces] at htakes
  exact next_eq_ok_iff.mpr ⟨_, _, by rw [hcut.text, Utf8.join_pieces], htakes, rfl⟩

theorem next_line {text rest : Bytes} (hline : 0x0a ∉ text) (hreturn : ¬ ("\r" : Bytes) <:+ text) :
    Meaning.next .text ⟨text ++ "\n" ++ rest, false⟩ = .ok (.text text) ⟨rest, false⟩ :=
  next_eq_ok_iff.mpr ⟨_, _, rfl, .line hline (.inr ⟨rfl, hreturn⟩), rfl⟩

theorem readAll_numbers (values : List Int32) (lead : Bytes) (hlead : ∀ b ∈ lead, b = 0x0a) :
    ∃ rest, readAll (List.replicate values.length .integer)
      ⟨lead ++ Bytes.ofLines (values.map fun n => Decimal.ofInt n.toInt), false⟩ =
        ⟨values.map .number, none, rest⟩ := by
  induction values generalizing lead with
  | nil => exact ⟨_, rfl⟩
  | cons n values ih =>
    have hspells : Decimal.Spells (Decimal.ofInt n.toInt) n.toInt :=
      Decimal.parse?_eq_some_iff.mp (Decimal.parse?_ofInt n.toInt)
    -- The newline behind a number is what the next read starts at.
    obtain ⟨rest, hrest⟩ := ih "\n" fun b hb => List.mem_singleton.mp hb
    refine ⟨rest, ?_⟩
    rw [List.map_cons, Bytes.ofLines_cons, List.append_assoc, List.length_cons,
      List.replicate_succ, readAll_cons_of_ok (next_spelled hlead hspells), hrest]
    rfl

theorem readAll_lines {texts : List Bytes}
    (h : ∀ text ∈ texts, 0x0a ∉ text ∧ ¬ ("\r" : Bytes) <:+ text) :
    readAll (List.replicate (texts.length + 1) .text) ⟨Bytes.ofLines texts, false⟩ =
      ⟨texts.map .text, some .noLine, ⟨[], false⟩⟩ := by
  induction texts with
  | nil => rfl
  | cons text texts ih =>
    obtain ⟨hline, hreturn⟩ := h text (by simp)
    have hrest := ih fun other hother => h other (by simp [hother])
    rw [Bytes.ofLines_cons, List.length_cons, List.replicate_succ,
      readAll_cons_of_ok (next_line hline hreturn), hrest]
    rfl

end Input

namespace Machine

/-- Prints values in turn, each by the method for its type. -/
def printAll : List Datum → Action Unit
  | [] => pure ()
  | d :: rest => do
    push .outputStream
    push d.value
    println (Emission.println d.type).descriptor
    printAll rest

theorem printAll_eq {m : Machine} (ds : List Datum) (hstack : m.stack.size + 2 ≤ m.maxStack)
    (hroom : m.output.room = none) :
    ∃ m', printAll ds m = .ok () m' ∧
      m'.output.bytes = m.output.bytes ++ Bytes.ofLines (ds.map Datum.render) := by
  induction ds generalizing m with
  | nil => exact ⟨m, rfl, (List.append_nil _).symm⟩
  | cons d rest ih =>
    let below := m.goes m.pc (m.stack.push .outputStream)
    let full := below.goes below.pc (below.stack.push d.value)
    let printed : Machine :=
      { m with output := ⟨m.output.lines.push (d.render ++ "\n"), none⟩ }
    have hbelow : push .outputStream m = .ok () below := push_eq (by omega)
    have hfull : push d.value below = .ok () full := by
      refine push_eq ?_
      simp only [below, goes, Array.size_push]
      omega
    have hstack' : full.stack = (m.stack.push .outputStream).push d.value := rfl
    have hprint : println (Emission.println d.type).descriptor full = .ok () printed :=
      println_eq hstack' hroom
    obtain ⟨m', hm', hbytes⟩ := ih (m := printed) hstack rfl
    refine ⟨m', ?_, ?_⟩
    · exact (bind_eq_of_ok hbelow _).trans
        ((bind_eq_of_ok hfull _).trans ((bind_eq_of_ok hprint _).trans hm'))
    · rw [hbytes]
      simp [printed, Output.bytes, Bytes.ofLines_cons]

/-- What is printed can be read back. The lines that are written for numbers give these numbers when
numbers are read, and the lines that are written for texts give these texts when lines are read, and
then no more. -/
theorem printed_items_read_back {m : Machine} (hstack : m.stack.size + 2 ≤ m.maxStack)
    (hroom : m.output.room = none) :
    (∀ values : List Int32, ∃ m' written rest, printAll (values.map .number) m = .ok () m' ∧
      m'.output.bytes = m.output.bytes ++ written ∧
      Input.readAll (List.replicate values.length .integer) ⟨written, false⟩ =
        ⟨values.map .number, none, rest⟩) ∧
    ∀ texts : List Bytes, (∀ text ∈ texts, 0x0a ∉ text ∧ ¬ ("\r" : Bytes) <:+ text) →
      ∃ m' written e, printAll (texts.map .text) m = .ok () m' ∧
        m'.output.bytes = m.output.bytes ++ written ∧
        Input.readAll (List.replicate (texts.length + 1) .text) ⟨written, false⟩ =
          ⟨texts.map .text, some e, ⟨[], false⟩⟩ ∧
        ("java.util.NoSuchElementException" : Bytes) <+: e.message := by
  constructor
  · intro values
    obtain ⟨m', hprint, hbytes⟩ := printAll_eq (values.map .number) hstack hroom
    obtain ⟨rest, hrest⟩ := Input.readAll_numbers values [] (by simp)
    rw [List.map_map] at hbytes
    exact ⟨m', _, rest, hprint, hbytes, hrest⟩
  · intro texts htexts
    obtain ⟨m', hprint, hbytes⟩ := printAll_eq (texts.map .text) hstack hroom
    have htext : (texts.map .text).map Datum.render = texts := by
      simp [Datum.render, Function.comp_def]
    rw [htext] at hbytes
    exact ⟨m', _, _, hprint, hbytes, Input.readAll_lines htexts, Input.Refuses.noLine.exception⟩

theorem printed_items_read_back_extremes :
    let m : Machine :=
      { constants := #[], code := #[], maxStack := 2, locals := #[], input := ⟨[], false⟩ }
    (m.stack.size + 2 ≤ m.maxStack ∧ m.output.room = none) ∧
    (∃ m' written rest,
      printAll ([-2147483648, -1, 0, 2147483647].map .number) m = .ok () m' ∧
      m'.output.bytes = m.output.bytes ++ written ∧
      Input.readAll (List.replicate 4 .integer) ⟨written, false⟩ =
        ⟨[-2147483648, -1, 0, 2147483647].map .number, none, rest⟩) ∧
    (∀ text ∈ ([[], [0xff], [0x0d, 0x20]] : List Bytes), 0x0a ∉ text ∧ ¬ ("\r" : Bytes) <:+ text) ∧
    ∃ m' written e, printAll (([[], [0xff], [0x0d, 0x20]] : List Bytes).map .text) m = .ok () m' ∧
      m'.output.bytes = m.output.bytes ++ written ∧
      Input.readAll (List.replicate 4 .text) ⟨written, false⟩ =
        ⟨([[], [0xff], [0x0d, 0x20]] : List Bytes).map .text, some e, ⟨[], false⟩⟩ ∧
      ("java.util.NoSuchElementException" : Bytes) <+: e.message := by
  intro m
  have htexts : ∀ text ∈ ([[], [0xff], [0x0d, 0x20]] : List Bytes),
      0x0a ∉ text ∧ ¬ ("\r" : Bytes) <:+ text := by decide
  have hm : m.stack.size + 2 ≤ m.maxStack ∧ m.output.room = none := ⟨by decide, rfl⟩
  obtain ⟨hnumbers, hlines⟩ := printed_items_read_back hm.1 hm.2
  exact ⟨hm, hnumbers _, htexts, hlines _ htexts⟩

end Machine

end ClassForge
