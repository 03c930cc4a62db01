import ClassForge.Dump.CborCodec
import ClassForge.Proofs.CborRoundTrip

/-! What is asked of the codec of dumps, and that concise binary objects give it: a record is written
in its canonical encoding, and read from each of its encodings when its texts are valid and its lists
keep to the limit of the reader. -/

namespace ClassForge.Dump

open Cbor

/-- A text that can be written and read back: it is valid, and its length has at most 64 bits. -/
structure IsText (s : Bytes) : Prop where
  valid : Utf8.isValid s = true
  short : s.length < 18446744073709551616

structure Symbol.IsPlain (v : Symbol) : Prop where
  name : IsText v.name
  type : IsText v.type
  slot : -9223372036854775808 ≤ v.slot ∧ v.slot < 9223372036854775808

structure IsReadable (r : Dump) : Prop where
  program : IsText r.program
  symbols : ∀ v ∈ r.symbols, v.IsPlain
  lines : ∀ line ∈ r.instructions.getD [], IsText line
  symbolCount : r.symbols.length ≤ maxItems
  lineCount : (r.instructions.getD []).length ≤ maxItems

def Symbol.Encodes (v : Symbol) : Bytes → Prop :=
  EncodesMap [("name", EncodesText v.name), ("slot", EncodesInt v.slot),
    ("type", EncodesText v.type)]

def SymbolsEncode (symbols : List Symbol) : Bytes → Prop :=
  if symbols.isEmpty then EncodesNull else EncodesArray Symbol.Encodes symbols

def LinesEncode : Option (List Bytes) → Bytes → Prop
  | some lines => EncodesArray EncodesText lines
  | none => EncodesNull

/-- The encodings of a record, with its fields in the canonical order. -/
def Encodes (r : Dump) : Bytes → Prop :=
  EncodesMap [("program", EncodesText r.program), ("variables", SymbolsEncode r.symbols),
    ("instructions", LinesEncode r.instructions)]

def Codec.IsCanonical (codec : Codec) : Prop :=
  ∀ {r : Dump} {data : Bytes}, codec.marshal r = .ok data → data = r.encode

/-- The codec writes records in canonical form. It writes each readable record, and reads it from
each of its encodings. -/
structure Codec.Conforms (codec : Codec) : Prop where
  canonical : codec.IsCanonical
  writes : ∀ {r : Dump}, r.IsReadable → ∃ data, codec.marshal r = .ok data
  reads : ∀ {r : Dump} {data : Bytes}, r.IsReadable → r.Encodes data → codec.unmarshal data = .ok r

/-! The canonical form is an encoding. -/

theorem Symbol.IsPlain.encodes {v : Symbol} (hv : v.IsPlain) : v.Encodes (symbolBytes v) := by
  refine encodes_map (by simp) (.cons ⟨rfl, ?_, encodes_text hv.name.short⟩
    (.cons ⟨rfl, ?_, encodes_int hv.slot.1 hv.slot.2⟩
      (.cons ⟨rfl, ?_, encodes_text hv.type.short⟩ .nil)))
  · exact (by decide : ("name" : Bytes).length < 18446744073709551616)
  · exact (by decide : ("slot" : Bytes).length < 18446744073709551616)
  · exact (by decide : ("type" : Bytes).length < 18446744073709551616)

theorem IsReadable.encodes {r : Dump} (hr : r.IsReadable) : r.Encodes r.encode := by
  have hsymbols : SymbolsEncode r.symbols
      (if r.symbols.isEmpty then Cbor.null else Cbor.array (r.symbols.map symbolBytes)) := by
    have hcount := hr.symbolCount
    simp only [maxItems] at hcount
    unfold SymbolsEncode
    split
    · rfl
    · exact encodes_array (by omega) fun v hv => (hr.symbols v hv).encodes
  have hlines : LinesEncode r.instructions (match r.instructions with
      | some lines => Cbor.array (lines.map Cbor.text)
      | none => Cbor.null) := by
    have hcount := hr.lineCount
    have hline := hr.lines
    cases hlisting : r.instructions with
    | none => rfl
    | some lines =>
      simp only [hlisting, Option.getD_some, maxItems] at hcount hline
      exact encodes_array (by omega) fun line h => encodes_text (hline line h).short
  refine encodes_map (by simp) (.cons ⟨rfl, ?_, encodes_text hr.program.short⟩
    (.cons ⟨rfl, ?_, hsymbols⟩ (.cons ⟨rfl, ?_, hlines⟩ .nil)))
  · exact (by decide : ("program" : Bytes).length < 18446744073709551616)
  · exact (by decide : ("variables" : Bytes).length < 18446744073709551616)
  · exact (by decide : ("instructions" : Bytes).length < 18446744073709551616)

theorem Codec.Conforms.read_of_marshal {codec : Codec} (hcodec : codec.Conforms) {r : Dump}
    (hr : r.IsReadable) : ∃ data, codec.marshal r = .ok data ∧ read codec data = .ok r := by
  obtain ⟨data, hdata⟩ := hcodec.writes hr
  refine ⟨data, hdata, ?_⟩
  rw [hcodec.canonical hdata, read, hcodec.reads hr hr.encodes]
  rfl

/-! Concise binary objects are read from any of their encodings. -/

theorem readFields_cons {ρ : Type} {fields seen : List Bytes} {read : Bytes → Item → ρ → Option ρ}
    {record : ρ} (record' : ρ) {key : Bytes} {value : Item} {rest : List (Item × Item)}
    (hkey : Utf8.isValid key = true) (hfield : field? fields seen key = some key)
    (hread : read key value record = some record') :
    readFields fields read seen record ((.text [key], value) :: rest) =
      readFields fields read (key :: seen) record' rest := by
  simp [readFields, hkey, hfield, hread]

theorem readText_text (old : Bytes) {s : Bytes} (hs : Utf8.isValid s = true) :
    readText old (.text [s]) = some s := by
  simp [readText, untag, hs]

theorem readInt_intItem (old : Int) {n : Int}
    (hn : -9223372036854775808 ≤ n ∧ n < 9223372036854775808) :
    readInt old (intItem n) = some n := by
  unfold intItem
  split
  · simp only [readInt, untag, int64?]
    rw [if_pos (by omega)]
    exact congrArg some (by omega)
  · simp only [readInt, untag, int64?]
    rw [if_pos (by omega)]
    exact congrArg some (by omega)

/-- A variable as it is read, before its fields are looked at. -/
def symbolItem (v : Symbol) : Item :=
  .map [(.text ["name"], .text [v.name]), (.text ["slot"], intItem v.slot),
    (.text ["type"], .text [v.type])]

theorem codes_symbol (levels : Nat) (v : Symbol) {s : Bytes} (h : v.Encodes s) :
    Codes (item (levels + 1)) s (symbolItem v) :=
  codes_map levels [.text [v.name], intItem v.slot, .text [v.type]] h
    (.cons (fun _ => codes_text levels) (.cons (fun _ => codes_int levels)
      (.cons (fun _ => codes_text levels) .nil))) (by simp [maxItems])

theorem readVariable_symbolItem {v : Symbol} (hv : v.IsPlain) :
    readVariable (symbolItem v) = some v := by
  simp only [readVariable, readRecord, symbolItem, untag]
  rw [readFields_cons { name := v.name } (by decide) (by decide) ?_,
    readFields_cons { name := v.name, slot := v.slot } (by decide) (by decide) ?_,
    readFields_cons v (by decide) (by decide) ?_]
  · rfl
  · have hother : (("type" : Bytes) == ("name" : Bytes)) = false := by decide
    simp only [hother, Bool.false_eq_true, if_false, beq_self_eq_true, if_true,
      readText_text _ hv.type.valid, Option.map_some]
  · have hname : (("slot" : Bytes) == ("name" : Bytes)) = false := by decide
    have htype : (("slot" : Bytes) == ("type" : Bytes)) = false := by decide
    simp only [hname, htype, Bool.false_eq_true, if_false, readInt_intItem _ hv.slot,
      Option.map_some]
  · simp only [beq_self_eq_true, if_true, readText_text _ hv.name.valid, Option.map_some]

theorem readList_array {α : Type} {read : Item → Option α} {item : α → Item} {as : List α}
    (h : ∀ a ∈ as, read (item a) = some a) :
    readList read (.array (as.map item)) = some (some as) := by
  have hall : (as.map item).mapM read = some as := by
    induction as with
    | nil => rfl
    | cons a as ih =>
      have hrest := ih fun b hb => h b (by simp [hb])
      simp [h a (by simp), hrest]
  simp only [readList, untag, hall, Option.map_some]

/-- The variables as they are read; none are read from null. -/
def symbolsItem (symbols : List Symbol) : Item :=
  if symbols.isEmpty then .simple 22 else .array (symbols.map symbolItem)

theorem codes_symbols (levels : Nat) {symbols : List Symbol} {s : Bytes}
    (h : SymbolsEncode symbols s) (hlength : symbols.length ≤ maxItems) :
    Codes (item (levels + 2)) s (symbolsItem symbols) := by
  cases symbols with
  | nil => exact codes_null _ h
  | cons v rest => exact codes_array h (fun v _ _ => codes_symbol levels v) hlength

theorem readList_symbolsItem {symbols : List Symbol} (h : ∀ v ∈ symbols, v.IsPlain) :
    (readList readVariable (symbolsItem symbols)).map (·.getD []) = some symbols := by
  cases symbols with
  | nil => rfl
  | cons v rest =>
    exact congrArg (Option.map (·.getD []))
      (readList_array fun v hv => readVariable_symbolItem (h v hv))

def linesItem : Option (List Bytes) → Item
  | some lines => .array (lines.map fun line => .text [line])
  | none => .simple 22

theorem codes_lines (levels : Nat) {listing : Option (List Bytes)} {s : Bytes}
    (h : LinesEncode listing s) (hlength : (listing.getD []).length ≤ maxItems) :
    Codes (item (levels + 1)) s (linesItem listing) := by
  cases listing with
  | none => exact codes_null _ h
  | some lines => exact codes_array h (fun _ _ _ => codes_text levels) hlength

theorem readList_linesItem {listing : Option (List Bytes)}
    (h : ∀ line ∈ listing.getD [], IsText line) :
    readList (readText []) (linesItem listing) = some listing := by
  cases listing with
  | none => rfl
  | some lines => exact readList_array fun line hline => readText_text [] (h line hline).valid

theorem IsReadable.decode?_eq {r : Dump} (hr : r.IsReadable) {data : Bytes} (h : r.Encodes data) :
    decode? data = some r := by
  have hcodes := codes_map 31
    [.text [r.program], symbolsItem r.symbols, linesItem r.instructions] h
    (.cons (fun _ => codes_text 31) (.cons (fun _ hs => codes_symbols 29 hs hr.symbolCount)
      (.cons (fun _ hl => codes_lines 30 hl hr.lineCount) .nil))) (by simp [maxItems])
  obtain ⟨symbols, hsymbols, hvariables⟩ :=
    Option.map_eq_some_iff.mp (readList_symbolsItem hr.symbols)
  rw [decode?, decode_of_codes hcodes, Option.bind_some]
  simp only [ofItem?, readRecord, untag, List.zipWith]
  rw [readFields_cons { program := r.program } (by decide) (by decide) ?_,
    readFields_cons { program := r.program, symbols := r.symbols } (by decide) (by decide) ?_,
    readFields_cons r (by decide) (by decide) ?_]
  · rfl
  · have hprogram : (("instructions" : Bytes) == ("program" : Bytes)) = false := by decide
    have hother : (("instructions" : Bytes) == ("variables" : Bytes)) = false := by decide
    simp only [hprogram, hother, Bool.false_eq_true, if_false, readList_linesItem hr.lines,
      Option.map_some]
  · have hother : (("variables" : Bytes) == ("program" : Bytes)) = false := by decide
    simp only [hother, Bool.false_eq_true, if_false, beq_self_eq_true, if_true, hsymbols,
      Option.map_some, hvariables]
  · simp only [beq_self_eq_true, if_true, readText_text _ hr.program.valid, Option.map_some]

theorem cbor_isCanonical : cbor.IsCanonical := by
  intro r data h
  cases h
  rfl

theorem cbor_conforms : cbor.Conforms where
  canonical := cbor_isCanonical
  writes := fun {r} _ => ⟨r.encode, rfl⟩
  reads := fun hr h => by simp only [cbor, hr.decode?_eq h]

end ClassForge.Dump
