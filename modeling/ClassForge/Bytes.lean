/-! Byte strings. Every text of the project (names, literals, messages, file contents) is a list
of bytes, which need not be valid UTF-8. -/

namespace ClassForge

abbrev Bytes := List UInt8

namespace Bytes

def ofString (s : String) : Bytes :=
  s.toUTF8.data.toList

instance : Coe String Bytes := ⟨ofString⟩

def isDigit (b : UInt8) : Bool :=
  0x30 ≤ b && b ≤ 0x39

def isUnderscore (b : UInt8) : Bool :=
  b == 0x5f

def isLetter (b : UInt8) : Bool :=
  0x61 ≤ b && b ≤ 0x7a || 0x41 ≤ b && b ≤ 0x5a

def isWordStart (b : UInt8) : Bool :=
  isLetter b || isUnderscore b

def isWord (b : UInt8) : Bool :=
  isLetter b || isUnderscore b || isDigit b

/-- A non-empty run of letters, digits and underscores that does not start with a digit. -/
def isIdentifier : Bytes → Bool
  | [] => false
  | b :: rest => isWordStart b && rest.all isWord

/-- A literal without its first and last byte. Fewer than two bytes come back unchanged. -/
def unquote (s : Bytes) : Bytes :=
  if s.length < 2 then s else s.tail.dropLast

def hexDigit (n : Nat) : UInt8 :=
  if n < 10 then 0x30 + n.toUInt8 else 0x57 + n.toUInt8

/-- The last `width` hexadecimal digits of `n`, lower case. -/
def hex : (width : Nat) → (n : Nat) → Bytes
  | 0, _ => []
  | width + 1, n => hex width (n / 16) ++ [hexDigit (n % 16)]

/-- The two bytes of `n` modulo 2^16, high byte first. -/
def u16 (n : Nat) : Bytes :=
  [(n / 256).toUInt8, n.toUInt8]

/-- The four bytes of `n` modulo 2^32, high byte first. -/
def u32 (n : Nat) : Bytes :=
  u16 (n / 65536) ++ u16 n

/-- The number that the bytes stand for, high byte first. -/
def number (s : Bytes) : Nat :=
  s.foldl (fun n b => n * 256 + b.toNat) 0

/-- `s` without the leading `lead`, when it starts with it. -/
def dropLead (lead s : Bytes) : Bytes :=
  if lead.isPrefixOf s then s.drop lead.length else s

/-- `s` without the final `tail`, when it ends with it. -/
def dropTail (tail s : Bytes) : Bytes :=
  if tail.isSuffixOf s then s.take (s.length - tail.length) else s

end Bytes

end ClassForge
