import ClassForge.Bytes

/-! UTF-8 seen as a sequence of pieces: each piece is a scalar value in its one valid encoding, or
a byte that belongs to no valid encoding. Overlong forms, surrogates and values above U+10FFFF are
not valid, and each of their bytes is a stray byte of its own. -/

namespace ClassForge.Utf8

inductive Piece where
  | scalar (c : Char)
  | stray (b : UInt8)
deriving DecidableEq, Repr

def isContinuation (b : UInt8) : Bool :=
  b &&& 0xc0 == 0x80

/-- The scalar value `n`, provided that its encoding needs the width in which it was found. -/
def scalar? (least n : Nat) : Option Char :=
  if h : least ≤ n ∧ n.isValidChar then some ⟨n.toUInt32, by
    have := h.2
    simp only [UInt32.isValidChar, Nat.isValidChar] at this ⊢
    simp only [Nat.toUInt32, UInt32.toNat_ofNat']
    omega⟩
  else none

/-- The payload bits of a continuation byte. -/
def payload (b : UInt8) : Nat :=
  (b &&& 0x3f).toNat

/-- The scalar value that `s` starts with, and the number of bytes after the first that encode
it. -/
def first? : Bytes → Option (Char × Nat)
  | [] => none
  | a :: rest =>
    if a < 0x80 then (scalar? 0 a.toNat).map (·, 0)
    else if a &&& 0xe0 == 0xc0 then
      match rest with
      | b :: _ =>
        if isContinuation b then
          (scalar? 0x80 ((a &&& 0x1f).toNat * 64 + payload b)).map (·, 1)
        else none
      | _ => none
    else if a &&& 0xf0 == 0xe0 then
      match rest with
      | b :: c :: _ =>
        if isContinuation b && isContinuation c then
          (scalar? 0x800 (((a &&& 0x0f).toNat * 64 + payload b) * 64 + payload c)).map (·, 2)
        else none
      | _ => none
    else if a &&& 0xf8 == 0xf0 then
      match rest with
      | b :: c :: d :: _ =>
        if isContinuation b && isContinuation c && isContinuation d then
          (scalar? 0x10000
            ((((a &&& 0x07).toNat * 64 + payload b) * 64 + payload c) * 64 + payload d)).map (·, 3)
        else none
      | _ => none
    else none

/-- Collects the pieces of `s` behind those of `done`, after `skip` bytes that are already read. -/
def collect (done : List Piece) : (skip : Nat) → (s : Bytes) → List Piece
  | _, [] => done.reverse
  | skip + 1, _ :: rest => collect done skip rest
  | 0, a :: rest =>
    match first? (a :: rest) with
    | some (c, more) => collect (.scalar c :: done) more rest
    | none => collect (.stray a :: done) 0 rest

def pieces (s : Bytes) : List Piece :=
  collect [] 0 s

def replacement : Char := '�'

/-- The character read for a piece: stray bytes read as U+FFFD. -/
def Piece.char : Piece → Char
  | .scalar c => c
  | .stray _ => replacement

def Piece.bytes : Piece → Bytes
  | .scalar c => String.utf8EncodeChar c
  | .stray b => [b]

def chars (s : Bytes) : List Char :=
  (pieces s).map Piece.char

def encode (cs : List Char) : Bytes :=
  cs.flatMap String.utf8EncodeChar

def Piece.isScalar : Piece → Bool
  | .scalar _ => true
  | .stray _ => false

def isValid (s : Bytes) : Bool :=
  (pieces s).all Piece.isScalar

/-- `s` with the encoding of U+FFFD in place of each stray byte. -/
def repair (s : Bytes) : Bytes :=
  encode (chars s)

end ClassForge.Utf8
