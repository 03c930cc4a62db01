import ClassForge.Toml.Number
import ClassForge.Toml.Syntax
import ClassForge.Toml.Text

/-! The statements of a TOML document. -/

namespace ClassForge.Toml

open Reading

def keyPart : Reading Bytes := do
  match ← peek? with
  | none => failure
  | some b =>
    if b == 0x22 || b == 0x27 then quotedLine b
    else
      let name ← run isBare
      guard (!name.isEmpty)
      return name

/-- A key whose parts have points between them, with blanks around each. -/
def key : Reading Key := do
  blanks
  let first ← keyPart
  blanks
  let rest ← many do
    if ← skip? "." then
      blanks
      let part ← keyPart
      blanks
      return some part
    else return none
  return first :: rest

/-- A value that starts with a digit or a sign. -/
def numberOrMoment : Reading Literal := do
  let s ← get
  let behind := (s.dropWhile Bytes.isDigit).head?
  if s.head?.any Bytes.isDigit && (behind == some 0x2d || behind == some 0x3a) then
    let shown ← run Moment.isByte
    guard (isMoment (shown.reverse.dropWhile (· == 0x20)).reverse)
    return .moment
  else
    let shown ← run fun b => Bytes.isWord b || b == 0x2b || b == 0x2d || b == 0x2e
    match integer? shown with
    | some n => return .integer n
    | none =>
      guard (isFloat shown)
      return .float

/-- A value that is a word. -/
def word : Reading Literal := do
  let shown ← run Bytes.isLetter
  if shown == ("true" : Bytes) then return .boolean true
  else if shown == ("false" : Bytes) then return .boolean false
  else
    guard (isFloat shown)
    return .float

/-- The items of a list up to its closing bracket, with commas between them and perhaps behind the
last. Blanks, newlines and comments may stand around each item. -/
def items {α : Type} (item : Reading α) (closing : UInt8) : Reading (List α) := do
  gaps
  let all ← many do
    if (← peek?) == some closing then return none
    let a ← item
    gaps
    unless ← skip? "," do
      guard ((← peek?) == some closing)
    gaps
    return some a
  byte closing
  return all

/-- An entry of a table, with its value. -/
def entry (value : Reading Literal) : Reading (Key × Literal) := do
  let k ← key
  byte 0x3d
  blanks
  return (k, ← value)

/-- A value with no others inside. -/
def scalar : Reading Literal := do
  match ← peek? with
  | none => failure
  | some b =>
    if b == 0x22 || b == 0x27 then return .text (← quoted b)
    else if Bytes.isLetter b then word
    else numberOrMoment

/-- A value in which `levels` arrays and tables may stand inside one another. -/
def value : (levels : Nat) → Reading Literal
  | 0 => scalar
  | levels + 1 => do
    if ← skip? "[" then return .array (← items (value levels) 0x5d)
    else if ← skip? "\x7b" then return .table (← items (entry (value levels)) 0x7d)
    else scalar

def statement : Reading Statement := do
  let s ←
    if ← skip? "[[" then
      let k ← key
      byte 0x5d
      byte 0x5d
      pure (Statement.tableArray k)
    else if ← skip? "[" then
      let k ← key
      byte 0x5d
      pure (Statement.table k)
    else
      let (k, v) ← entry (value (← get).length)
      pure (Statement.entry k v)
  lineEnd
  return s

def statements : Reading (List Statement) := do
  gaps
  many do
    if (← get).isEmpty then return none
    let s ← statement
    gaps
    return some s

/-- Whether a text has no control characters but tabs and the ends of lines. -/
def isPlain : Bytes → Bool
  | [] => true
  | b :: rest =>
    if b == 0x0d then rest.head? == some 0x0a && isPlain rest
    else if b < 0x20 && b != 0x09 && b != 0x0a || b == 0x7f then false
    else isPlain rest

/-- A document without the mark of its byte order. -/
def dropMark (s : Bytes) : Bytes :=
  match s with
  | 0xff :: 0xfe :: rest => rest
  | 0xfe :: 0xff :: rest => rest
  | 0xef :: 0xbb :: 0xbf :: rest => rest
  | _ => s

def parse (document : Bytes) : Option (List Statement) :=
  let s := dropMark document
  if !Utf8.isValid s || !isPlain s then none
  else
    match statements s with
    | some (all, []) => some all
    | _ => none

end ClassForge.Toml
