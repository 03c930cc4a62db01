import ClassForge.Text.Numeral
import ClassForge.Toml.Reading

/-! Numbers, dates and times in TOML documents. -/

namespace ClassForge.Toml

def dropSign : Bytes → Bytes
  | 0x2b :: rest => rest
  | 0x2d :: rest => rest
  | s => s

/-- Whether a number has no sign, and no needless zeros in front. -/
def isPlainDecimal (s : Bytes) : Bool :=
  !(s.head? == some 0x30 && s.length > 1) && Numeral.isGrouped 10 false s

/-- An integer, in decimal or without a sign in base two, eight or sixteen. It has 64 bits. -/
def integer? (s : Bytes) : Option Int := do
  let marked? := match s with
    | 0x30 :: mark :: digits => (Numeral.baseOf? mark).map (·, digits)
    | _ => none
  let n : Int ← match marked? with
    | some (base, digits) => do
      guard (Numeral.isGrouped base false digits)
      pure (Int.ofNat (← (Numeral.scan base 0 digits).toOption))
    | none => do
      let digits := dropSign s
      guard (isPlainDecimal digits)
      let n ← (Numeral.scan 10 0 digits).toOption
      pure (if s.head? == some 0x2d then -(n : Int) else n)
  if Numeral.least64 ≤ n ∧ n ≤ Numeral.greatest64 then some n else none

/-- The least number that rounds to infinity in double precision. -/
def floatLimit : Nat :=
  Nat.pow 2 1024 - Nat.pow 2 970

/-- Whether the number with these digits, times a power of ten, is in the range of floats. Only its
part in front of the point decides. -/
def isFinite (digits : Bytes) (exponent : Int) : Bool :=
  let digits := digits.dropWhile (· == 0x30)
  let size := exponent + digits.length
  if digits.isEmpty then true
  else if size > 400 then false
  else
    let whole := digits.take size.toNat
    Numeral.value 10 whole * Nat.pow 10 (size.toNat - whole.length) < floatLimit

/-- The size of an exponent. From ten thousand on, further digits are left out. -/
def exponentSize (digits : Bytes) : Nat :=
  digits.foldl (fun e d => if e < 10000 then e * 10 + (d.toNat - 0x30) else e) 0

/-- How many digits in front of the point count. -/
def maxWhole : Nat := 800

/-- A number with a fraction, an exponent or both, or one of the two special values. -/
def isFloat (s : Bytes) : Bool :=
  let body := dropSign s
  let isMark (b : UInt8) : Bool := b == 0x65 || b == 0x45
  let mantissa := body.takeWhile (!isMark ·)
  let exponent := (body.drop mantissa.length).drop 1
  let whole := mantissa.takeWhile (· != 0x2e)
  let fraction := (mantissa.drop whole.length).drop 1
  let hasExponent := body.length > mantissa.length
  let hasFraction := mantissa.length > whole.length
  if body == ("inf" : Bytes) || body == ("nan" : Bytes) then true
  else if !hasExponent && !hasFraction then false
  else
    let digits (part : Bytes) : Bytes := part.filter Bytes.isDigit
    let isWritten := isPlainDecimal whole &&
      (!hasFraction || Numeral.isGrouped 10 false fraction) &&
      (!hasExponent || Numeral.isGrouped 10 false (dropSign exponent))
    let size : Int := exponentSize (digits exponent)
    isWritten &&
      isFinite ((digits whole).take maxWhole ++ digits fraction)
        ((if exponent.head? == some 0x2d then -size else size) - (digits fraction).length)

namespace Moment

open Reading

/-- A number of exactly so many digits. -/
def digits (width : Nat) : Reading Nat := do
  let s ← get
  let shown := s.take width
  if shown.length = width ∧ shown.all Bytes.isDigit then
    set (s.drop width)
    return Numeral.value 10 shown
  else failure

def isLeap (year : Nat) : Bool :=
  year % 4 = 0 && (year % 100 ≠ 0 || year % 400 = 0)

def daysIn (year month : Nat) : Nat :=
  if month = 2 then if isLeap year then 29 else 28
  else if month = 4 || month = 6 || month = 9 || month = 11 then 30
  else 31

def date : Reading Unit := do
  let year ← digits 4
  byte 0x2d
  let month ← digits 2
  byte 0x2d
  let day ← digits 2
  guard (1 ≤ month ∧ month ≤ 12 ∧ 1 ≤ day ∧ day ≤ daysIn year month)

/-- Hours and minutes, perhaps seconds, and then perhaps a fraction of a second. -/
def time : Reading Unit := do
  let hour ← digits 2
  byte 0x3a
  let minute ← digits 2
  guard (hour < 24 ∧ minute < 60)
  if ← skip? ":" then
    let second ← digits 2
    guard (second < 60)
    if ← skip? "." then
      let fraction ← run Bytes.isDigit
      guard (!fraction.isEmpty)

/-- The distance from universal time, if any is given. -/
def zone : Reading Unit := do
  if ← skip? "Z" then return
  match ← peek? with
  | none => pure ()
  | some sign =>
    guard (sign == 0x2b || sign == 0x2d)
    byte sign
    let hour ← digits 2
    byte 0x3a
    let minute ← digits 2
    guard (hour ≤ 24 ∧ minute ≤ 60)

def dateTime : Reading Unit := do
  date
  byte 0x54
  time
  zone

def isByte (b : UInt8) : Bool :=
  Bytes.isDigit b || b == 0x2d || b == 0x3a || b == 0x54 || b == 0x74 || b == 0x20 ||
    b == 0x2e || b == 0x5a || b == 0x7a || b == 0x2b

/-- The letters of dates and times have either case, and a space may stand for the first. -/
def normal (b : UInt8) : UInt8 :=
  if b == 0x74 || b == 0x20 then 0x54 else if b == 0x7a then 0x5a else b

end Moment

def isMoment (s : Bytes) : Bool :=
  let s := s.map Moment.normal
  Reading.accepts Moment.date s || Reading.accepts Moment.time s ||
    Reading.accepts Moment.dateTime s

end ClassForge.Toml
