import ClassForge.Text.Decimal
import ClassForge.Text.Utf8

/-! The text encoding of class files. It encodes the 16-bit units of a text in one to three bytes
each: NUL takes two bytes, and a character above U+FFFF two surrogates of three bytes. -/

namespace ClassForge.ModifiedUtf8

def encodeTriple (n : Nat) : Bytes :=
  [0xe0 ||| (n / 4096).toUInt8, 0x80 ||| (n / 64 % 64).toUInt8, 0x80 ||| (n % 64).toUInt8]

def encodeChar (c : Char) : Bytes :=
  let n := c.toNat
  if n ≠ 0 ∧ n < 0x80 then [n.toUInt8]
  else if n < 0x800 then [0xc0 ||| (n / 64).toUInt8, 0x80 ||| (n % 64).toUInt8]
  else if n < 0x10000 then encodeTriple n
  else
    encodeTriple (0xd800 + (n - 0x10000) / 1024) ++ encodeTriple (0xdc00 + (n - 0x10000) % 1024)

/-- Stray bytes of `s` are encoded as U+FFFD. -/
def encode (s : Bytes) : Bytes :=
  (Utf8.chars s).flatMap encodeChar

/-- The data is malformed at a byte. -/
structure Malformed where
  position : Nat
deriving DecidableEq, Repr

def Malformed.message (e : Malformed) : Bytes :=
  "classfile: malformed modified UTF-8 at byte " ++ Decimal.ofNat e.position

/-- Collects the units of the data from `position` on behind those of `done`, which are in
reverse. -/
def collectUnits (done : List Nat) (position : Nat) : Bytes → Except Malformed (List Nat)
  | [] => .ok done.reverse
  | a :: rest =>
    if a < 0x80 then collectUnits (a.toNat :: done) (position + 1) rest
    else if a &&& 0xe0 == 0xc0 then
      match rest with
      | b :: rest =>
        collectUnits (((a &&& 0x1f).toNat * 64 + Utf8.payload b) :: done) (position + 2) rest
      | _ => .error ⟨position⟩
    else if a &&& 0xf0 == 0xe0 then
      match rest with
      | b :: c :: rest =>
        collectUnits ((((a &&& 0x0f).toNat * 64 + Utf8.payload b) * 64 + Utf8.payload c) :: done)
          (position + 3) rest
      | _ => .error ⟨position⟩
    else .error ⟨position⟩

def units (data : Bytes) : Except Malformed (List Nat) :=
  collectUnits [] 0 data

def isHigh (u : Nat) : Bool :=
  0xd800 ≤ u && u < 0xdc00

def isLow (u : Nat) : Bool :=
  0xdc00 ≤ u && u < 0xe000

/-- The character with the code point `n`; a surrogate on its own reads as U+FFFD. -/
def charOfNat (n : Nat) : Char :=
  (Utf8.scalar? 0 n).getD Utf8.replacement

/-- Collects the characters of the units behind those of `done`, which are in reverse. -/
def collectChars (done : List Char) : List Nat → List Char
  | [] => done.reverse
  | [u] => (charOfNat u :: done).reverse
  | u :: v :: rest =>
    if isHigh u && isLow v then
      collectChars (charOfNat (0x10000 + (u - 0xd800) * 1024 + (v - 0xdc00)) :: done) rest
    else collectChars (charOfNat u :: done) (v :: rest)

def decode (data : Bytes) : Except Malformed Bytes :=
  (units data).map fun us => Utf8.encode (collectChars [] us)

end ClassForge.ModifiedUtf8
