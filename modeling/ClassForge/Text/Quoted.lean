import ClassForge.Text.Printable
import ClassForge.Text.Utf8

/-! Quoted text, as it stands in listings and messages. Control characters have short escapes or
two hexadecimal digits, other characters that are not printable four or eight, and stray bytes two
each. -/

namespace ClassForge.Quoted

/-- The letter of the two character escape of a control character. -/
def shortEscape? (c : Char) : Option Char :=
  match c.toNat with
  | 0x07 => some 'a'
  | 0x08 => some 'b'
  | 0x09 => some 't'
  | 0x0a => some 'n'
  | 0x0b => some 'v'
  | 0x0c => some 'f'
  | 0x0d => some 'r'
  | _ => none

def escape (mark c : Char) : Bytes :=
  if c == mark || c == '\\' then "\\" ++ String.utf8EncodeChar c
  else
    match shortEscape? c with
    | some letter => "\\" ++ String.utf8EncodeChar letter
    | none =>
      if Printable.isPrintable c then String.utf8EncodeChar c
      else if c.toNat < 0x80 then "\\x" ++ Bytes.hex 2 c.toNat
      else if c.toNat < 0x10000 then "\\u" ++ Bytes.hex 4 c.toNat
      else "\\U" ++ Bytes.hex 8 c.toNat

def piece : Utf8.Piece → Bytes
  | .scalar c => escape '"' c
  | .stray b => "\\x" ++ Bytes.hex 2 b.toNat

/-- `s` between double quotes. -/
def text (s : Bytes) : Bytes :=
  "\"" ++ (Utf8.pieces s).flatMap piece ++ "\""

/-- The character with the code point `b`, between single quotes. -/
def byte (b : UInt8) : Bytes :=
  "'" ++ escape '\'' (Char.ofNat b.toNat) ++ "'"

end ClassForge.Quoted
