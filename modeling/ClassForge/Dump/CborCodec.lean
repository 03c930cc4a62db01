import ClassForge.Dump.Basic
import ClassForge.Dump.Cbor
import ClassForge.Text.Utf8

/-! Dumps as concise binary objects: records are maps from the names of their fields. -/

namespace ClassForge.Dump

def symbolBytes (v : Symbol) : Bytes :=
  Cbor.map [("name", Cbor.text v.name), ("slot", Cbor.int v.slot), ("type", Cbor.text v.type)]

/-- The canonical encoding. No variables are written as null, and so is a listing that is absent. -/
def encode (r : Dump) : Bytes :=
  Cbor.map [
    ("program", Cbor.text r.program),
    ("variables",
      if r.symbols.isEmpty then Cbor.null else Cbor.array (r.symbols.map symbolBytes)),
    ("instructions", match r.instructions with
      | some lines => Cbor.array (lines.map Cbor.text)
      | none => Cbor.null)]

open Cbor (Item)

/-- Whether a standard tag may stand in front of an item. -/
def tagFits (number : Nat) (content : Item) : Bool :=
  match number, content with
  | 0, .text _ => true
  | 0, _ => false
  | 1, .unsigned _ | 1, .negative _ | 1, .float => true
  | 1, _ => false
  | 2, .bytes _ | 3, .bytes _ => true
  | 2, _ | 3, _ => false
  | _, _ => true

/-- The item behind its tags; the tags of big numbers stay. -/
def untag : Item → Option Item
  | .tag number content =>
    if !tagFits number content then none
    else if number = 2 ∨ number = 3 then some (.tag number content)
    else untag content
  | i => some i

def isNull : Item → Bool
  | .simple 22 | .simple 23 => true
  | _ => false

def int64? (n : Int) : Option Int :=
  if -9223372036854775808 ≤ n ∧ n ≤ 9223372036854775807 then some n else none

/-- A text; null keeps the text there is. -/
def readText (old : Bytes) (i : Item) : Option Bytes :=
  match untag i with
  | some (.text chunks) => if chunks.all Utf8.isValid then some chunks.flatten else none
  | some i => if isNull i then some old else none
  | none => none

/-- A number of 64 bits with a sign; null keeps the number there is. -/
def readInt (old : Int) (i : Item) : Option Int :=
  match untag i with
  | some (.unsigned n) => int64? n
  | some (.negative n) => int64? (-1 - n)
  | some (.tag 2 (.bytes s)) => int64? s.number
  | some (.tag 3 (.bytes s)) => int64? (-1 - s.number)
  | some (.simple n) =>
    if n = 22 ∨ n = 23 then some old else if n = 20 ∨ n = 21 then none else some n
  | _ => none

/-- A list whose elements are read in turn; null is no list. -/
def readList {α : Type} (element : Item → Option α) (i : Item) : Option (Option (List α)) :=
  match untag i with
  | some (.array items) => (items.mapM element).map some
  | some i => if isNull i then some none else none
  | none => none

def lower (b : UInt8) : UInt8 :=
  if 0x41 ≤ b && b ≤ 0x5a then b + 32 else b

/-- The field that a key names: exactly, or else but for the case of its letters. A field that has
been read is not read again. -/
def field? (fields : List Bytes) (seen : List Bytes) (key : Bytes) : Option Bytes :=
  let exact := fields.find? (· == key)
  let found := exact.orElse fun _ => fields.find? fun f => f == key.map lower
  found.filter (!seen.contains ·)

/-- Reads the values of the known fields into `record`. Keys that are unknown, and numbers as keys,
are skipped; a negative number has to fit in 64 bits. -/
def readFields {ρ : Type} (fields : List Bytes) (read : Bytes → Item → ρ → Option ρ)
    (seen : List Bytes) (record : ρ) : List (Item × Item) → Option ρ
  | [] => some record
  | (.text chunks, value) :: rest =>
    if !chunks.all Utf8.isValid then none
    else
      match field? fields seen chunks.flatten with
      | none => readFields fields read seen record rest
      | some f =>
        match read f value record with
        | none => none
        | some record => readFields fields read (f :: seen) record rest
  | (.unsigned _, _) :: rest => readFields fields read seen record rest
  | (.negative n, _) :: rest =>
    if (int64? (-1 - n)).isNone then none else readFields fields read seen record rest
  | _ => none

/-- A record with the given fields; null is the empty one. -/
def readRecord {ρ : Type} (fields : List Bytes) (read : Bytes → Item → ρ → Option ρ) (empty : ρ)
    (i : Item) : Option ρ :=
  match untag i with
  | some (.map pairs) => readFields fields read [] empty pairs
  | some i => if isNull i then some empty else none
  | none => none

def readVariable (i : Item) : Option Dump.Symbol :=
  readRecord ["name", "type", "slot"]
    (fun field value v =>
      if field == ("name" : Bytes) then (readText v.name value).map fun name => { v with name }
      else if field == ("type" : Bytes) then (readText v.type value).map fun type => { v with type }
      else (readInt v.slot value).map fun slot => { v with slot })
    {} i

def ofItem? (i : Item) : Option Dump :=
  readRecord ["program", "variables", "instructions"]
    (fun field value r =>
      if field == ("program" : Bytes) then
        (readText r.program value).map fun program => { r with program }
      else if field == ("variables" : Bytes) then
        (readList readVariable value).map fun symbols => { r with symbols := symbols.getD [] }
      else (readList (readText []) value).map fun instructions => { r with instructions })
    {} i

def decode? (data : Bytes) : Option Dump :=
  (Cbor.decode data).bind ofItem?

/-- The codec of concise binary objects. -/
def cbor : Codec where
  marshal r := .ok r.encode
  unmarshal data :=
    match decode? data with
    | some r => .ok r
    | none => .error "malformed record"

end ClassForge.Dump
