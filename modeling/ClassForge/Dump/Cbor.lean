import ClassForge.Bytes

/-! Concise binary objects. Written data has the shortest lengths and nothing indefinite; read data
may have either, within the limits below. -/

namespace ClassForge.Cbor

/-! Writing. Each function gives the encoding of an item from those of its parts. -/

/-- The first bytes of an item: its major type and a number. -/
def head (major : UInt8) (n : Nat) : Bytes :=
  if n < 24 then [major * 32 + n.toUInt8]
  else if n < 256 then [major * 32 + 24, n.toUInt8]
  else if n < 65536 then (major * 32 + 25) :: Bytes.u16 n
  else if n < 4294967296 then (major * 32 + 26) :: Bytes.u32 n
  else (major * 32 + 27) :: (Bytes.u32 (n / 4294967296) ++ Bytes.u32 n)

def int (n : Int) : Bytes :=
  if 0 ≤ n then head 0 n.toNat else head 1 (-1 - n).toNat

def text (s : Bytes) : Bytes :=
  head 3 s.length ++ s

def array (items : List Bytes) : Bytes :=
  head 4 items.length ++ items.flatten

/-- A map with text keys, which are given by length and then by their bytes. -/
def map (pairs : List (Bytes × Bytes)) : Bytes :=
  head 5 pairs.length ++ pairs.flatMap fun (key, value) => text key ++ value

def null : Bytes :=
  [0xf6]

/-! Reading. -/

inductive Item where
  | unsigned (n : Nat)
  /-- The number `-1 - n`. -/
  | negative (n : Nat)
  | bytes (s : Bytes)
  /-- A text in one or more chunks, each of which is to be valid on its own. -/
  | text (chunks : List Bytes)
  | array (items : List Item)
  | map (pairs : List (Item × Item))
  | tag (number : Nat) (content : Item)
  | simple (n : Nat)
  | float
deriving Repr

/-- How many arrays and maps may stand inside one another. -/
def maxLevels : Nat := 32

/-- How many items an array, and how many pairs a map may have. -/
def maxItems : Nat := 131072

/-- The number in the next `width` bytes, after those in `n`. -/
def number (n : Nat) : (width : Nat) → Bytes → Option (Nat × Bytes)
  | 0, s => some (n, s)
  | width + 1, b :: s => number (n * 256 + b.toNat) width s
  | _ + 1, [] => none

/-- The number behind the first byte of an item; none for the mark of an indefinite length. -/
def argument (low : Nat) (s : Bytes) : Option (Option Nat × Bytes) :=
  if low < 24 then some (some low, s)
  else if low = 24 then (number 0 1 s).map fun (n, s) => (some n, s)
  else if low = 25 then (number 0 2 s).map fun (n, s) => (some n, s)
  else if low = 26 then (number 0 4 s).map fun (n, s) => (some n, s)
  else if low = 27 then (number 0 8 s).map fun (n, s) => (some n, s)
  else if low = 31 then some (none, s)
  else none

def isBreak : Bytes → Bool
  | 0xff :: _ => true
  | _ => false

/-- The next `n` bytes. -/
def chunk (n : Nat) (s : Bytes) : Option (Bytes × Bytes) :=
  let taken := s.take n
  if taken.length = n then some (taken, s.drop n) else none

/-- Chunks of the major type of a string, up to a break. The chunks of `done` are in reverse. -/
def chunks (major : Nat) (done : List Bytes) : (limit : Nat) → Bytes → Option (List Bytes × Bytes)
  | 0, _ => none
  | limit + 1, s =>
    if isBreak s then some (done.reverse, s.drop 1)
    else
      match s with
      | [] => none
      | b :: rest =>
        if b.toNat / 32 ≠ major then none
        else
          match argument (b.toNat % 32) rest with
          | some (some n, rest) =>
            match chunk n rest with
            | some (c, rest) => chunks major (c :: done) limit rest
            | none => none
          | _ => none

/-- The chunks of a string with the given length. -/
def string (major : Nat) (length : Option Nat) (s : Bytes) : Option (List Bytes × Bytes) :=
  match length with
  | some n => (chunk n s).map fun (c, rest) => ([c], rest)
  | none => chunks major [] (s.length + 1) s

/-- Reads `count` items. The items of `done` are in reverse. -/
def items (item : Bytes → Option (Item × Bytes)) (done : List Item) :
    (count : Nat) → Bytes → Option (List Item × Bytes)
  | 0, s => some (done.reverse, s)
  | count + 1, s =>
    match item s with
    | some (i, s) => items item (i :: done) count s
    | none => none

/-- Reads items up to a break, at most `limit` of them. -/
def itemsToBreak (item : Bytes → Option (Item × Bytes)) (done : List Item) :
    (limit : Nat) → Bytes → Option (List Item × Bytes)
  | limit, s =>
    if isBreak s then some (done.reverse, s.drop 1)
    else
      match limit with
      | 0 => none
      | limit + 1 =>
        match item s with
        | some (i, s) => itemsToBreak item (i :: done) limit s
        | none => none

/-- Items in pairs; none if one is left over. -/
def pairs (done : List (Item × Item)) : List Item → Option (List (Item × Item))
  | [] => some done.reverse
  | [_] => none
  | key :: value :: rest => pairs ((key, value) :: done) rest

/-- The items inside an array, or inside a map with two for each pair. -/
def inner (item : Bytes → Option (Item × Bytes)) (perEntry : Nat) (length : Option Nat)
    (s : Bytes) : Option (List Item × Bytes) :=
  match length with
  | some n => if n > maxItems then none else items item [] (perEntry * n) s
  | none => itemsToBreak item [] (perEntry * maxItems) s

/-- Reads an item that is not a tag. The items of arrays and maps are read by `inside`, which is
missing where no such item may stand. -/
def untagged (inside : Option (Bytes → Option (Item × Bytes))) : Bytes → Option (Item × Bytes)
  | [] => none
  | b :: s =>
    let low := b.toNat % 32
    match argument low s with
    | none => none
    | some (length, s) =>
      match b.toNat / 32, inside with
      | 0, _ => length.map fun n => (.unsigned n, s)
      | 1, _ => length.map fun n => (.negative n, s)
      | 2, _ => (string 2 length s).map fun (cs, s) => (.bytes cs.flatten, s)
      | 3, _ => (string 3 length s).map fun (cs, s) => (.text cs, s)
      | 4, some item => (inner item 1 length s).map fun (is, s) => (.array is, s)
      | 5, some item =>
        match inner item 2 length s with
        | some (is, s) => (pairs [] is).map fun ps => (.map ps, s)
        | none => none
      | 7, _ =>
        match length with
        | none => none
        | some n =>
          if low < 24 then some (.simple n, s)
          else if low = 24 then if n < 32 then none else some (.simple n, s)
          else some (.float, s)
      | _, _ => none

def isTag : Bytes → Bool
  | b :: _ => b.toNat / 32 = 6
  | [] => false

/-- Reads an item with the tag in front of it, if there is one. Behind a tag, another one is part of
an item inside. -/
def tagged (inside : Option (Bytes → Option (Item × Bytes))) (s : Bytes) :
    Option (Item × Bytes) :=
  match s with
  | b :: rest =>
    if !isTag s then untagged inside s
    else
      match argument (b.toNat % 32) rest with
      | some (some n, rest) =>
        let content := if isTag rest then inside.bind (· rest) else untagged inside rest
        content.map fun (i, s) => (.tag n i, s)
      | _ => none
  | [] => none

/-- Reads an item in which `levels` arrays and maps may stand inside one another. A tag behind
another one takes a level as well. -/
def item : (levels : Nat) → Bytes → Option (Item × Bytes)
  | 0 => tagged none
  | levels + 1 => tagged (some (item levels))

/-- Reads one item, with nothing behind it. -/
def decode (s : Bytes) : Option Item :=
  match item maxLevels s with
  | some (i, []) => some i
  | _ => none

end ClassForge.Cbor
