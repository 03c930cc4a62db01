import ClassForge.Text.Numeral
import ClassForge.Text.Utf8
import ClassForge.Toml.Reading

/-! Quoted texts in TOML documents. -/

namespace ClassForge.Toml

open Reading

/-- The encoding of the character whose number is given by so many hexadecimal digits. -/
def codePoint? (width : Nat) (s : Bytes) : Option Bytes := do
  let digits := s.take width
  guard (digits.length = width ∧ !digits.contains 0x5f)
  let n ← Numeral.groups? 16 digits
  let c ← Utf8.scalar? 0 n
  return Utf8.encode [c]

/-- What the text behind a backslash stands for, and how much of it is used. -/
def escape? : Bytes → Option (Bytes × Nat)
  | [] => none
  | b :: rest =>
    if b == 0x62 then some ([0x08], 1)
    else if b == 0x74 then some ([0x09], 1)
    else if b == 0x6e then some ([0x0a], 1)
    else if b == 0x66 then some ([0x0c], 1)
    else if b == 0x72 then some ([0x0d], 1)
    else if b == 0x65 then some ([0x1b], 1)
    else if b == 0x22 then some ([0x22], 1)
    else if b == 0x5c then some ([0x5c], 1)
    else if b == 0x78 then (codePoint? 2 rest).map (·, 3)
    else if b == 0x75 then (codePoint? 4 rest).map (·, 5)
    else if b == 0x55 then (codePoint? 8 rest).map (·, 9)
    else none

/-- The rest of a text on one line, up to its closing quote. Escapes only count between double
quotes. -/
def lineText (quote : UInt8) (done : Bytes) : (skip : Nat) → Bytes → Option (Bytes × Bytes)
  | _, [] => none
  | skip + 1, _ :: rest => lineText quote done skip rest
  | 0, b :: rest =>
    if b == quote then some (done.reverse, rest)
    else if isNewline b then none
    else if b == 0x5c && quote == 0x22 then
      match escape? rest with
      | some (s, used) => lineText quote (s.reverse ++ done) used rest
      | none => none
    else lineText quote (b :: done) 0 rest

/-- The number of blanks and newlines behind a backslash that ends a line. -/
def continued? (s : Bytes) : Option Nat :=
  let white := s.takeWhile fun b => isBlank b || isNewline b
  if white.contains 0x0a then some white.length else none

/-- The most quotes that can end a text on several lines: the three that close it, and two of its own.
Between double quotes there may be a third one behind an escaped backslash; `before` is the byte in
front of the quotes. -/
def maxClosing (quote before : UInt8) : Nat :=
  if quote == 0x22 && before == 0x5c then 6 else 5

/-- The rest of a text on several lines, up to its closing quotes. -/
def blockText (quote : UInt8) (done : Bytes) (before : UInt8) :
    (skip : Nat) → Bytes → Option (Bytes × Bytes)
  | _, [] => none
  | skip + 1, b :: rest => blockText quote done b skip rest
  | 0, b :: rest =>
    if b == quote then
      let quotes := 1 + (rest.takeWhile (· == quote)).length
      if quotes < 3 then blockText quote (b :: done) b 0 rest
      else if quotes ≤ maxClosing quote before then
        some (done.reverse ++ List.replicate (quotes - 3) quote, rest.drop (quotes - 1))
      else none
    else if b == 0x5c && quote == 0x22 then
      match continued? rest with
      | some used => blockText quote done b used rest
      | none =>
        match escape? rest with
        | some (s, used) => blockText quote (s.reverse ++ done) b used rest
        | none => none
    else blockText quote (b :: done) b 0 rest

/-- A text in single or double quotes on one line. -/
def quotedLine (quote : UInt8) : Reading Bytes := do
  byte quote
  lineText quote [] 0

/-- A text in quotes, or in three of them on each side. A newline right behind three quotes does not
count. -/
def quoted (quote : UInt8) : Reading Bytes := do
  if ← skip? [quote, quote, quote] then
    unless ← skip? "\r\n" do
      discard (skip? "\n")
    blockText quote [] quote 0
  else quotedLine quote

end ClassForge.Toml
