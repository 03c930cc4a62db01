import ClassForge.Bytes

/-! Integers in several bases, with underscores between their digits. -/

namespace ClassForge.Numeral

/-- The value of a digit, of which a base has as many as it says. -/
def digit? (base : Nat) (b : UInt8) : Option Nat :=
  let value? :=
    if Bytes.isDigit b then some (b.toNat - 0x30)
    else if 0x61 ≤ b && b ≤ 0x66 then some (b.toNat - 0x57)
    else if 0x41 ≤ b && b ≤ 0x46 then some (b.toNat - 0x37)
    else none
  value?.filter (· < base)

/-- Whether a text has digits in groups. Between two groups there is one underscore. -/
def isGrouped (base : Nat) (afterDigit : Bool) : Bytes → Bool
  | [] => afterDigit
  | b :: rest =>
    if b == 0x5f then afterDigit && isGrouped base false rest
    else (digit? base b).isSome && isGrouped base true rest

/-- The number that the digits of a text make. -/
def value (base : Nat) (s : Bytes) : Nat :=
  s.foldl (fun n b => match digit? base b with
    | some d => n * base + d
    | none => n) 0

/-- The number written by digits in groups. -/
def groups? (base : Nat) (s : Bytes) : Option Nat :=
  if isGrouped base false s then some (value base s) else none

/-- The base that a letter after a leading zero stands for. -/
def baseOf? (b : UInt8) : Option Nat :=
  if b == 0x62 then some 2
  else if b == 0x6f then some 8
  else if b == 0x78 then some 16
  else none

def least64 : Int := -9223372036854775808

def greatest64 : Int := 9223372036854775807

inductive Problem where
  | malformed
  | outOfRange
deriving DecidableEq, Repr

/-- The number of digits with underscores anywhere. The first digit that is wrong, or that takes the
number beyond 64 bits, decides. -/
def scan (base n : Nat) : Bytes → Except Problem Nat
  | [] => .ok n
  | b :: rest =>
    if b == 0x5f then scan base n rest
    else
      match digit? base b with
      | none => .error .malformed
      | some d =>
        let n := n * base + d
        if n ≥ 18446744073709551616 then .error .outOfRange else scan base n rest

/-- The size of a number, without its sign. A leading zero stands for base eight, and with a letter
behind it for another base; an underscore may follow that letter. -/
def magnitude (s : Bytes) : Except Problem Nat :=
  let (base, digits, isMarked) := match s with
    | 0x30 :: mark :: d :: rest =>
      match baseOf? (if Bytes.isLetter mark then mark ||| 0x20 else mark) with
      | some base => (base, d :: rest, true)
      | none => (8, mark :: d :: rest, false)
    | 0x30 :: rest => (8, rest, false)
    | _ => (10, s, false)
  if s.isEmpty then .error .malformed
  else
    match scan base 0 digits with
    | .error e => .error e
    | .ok n =>
      let grouped := if isMarked then isGrouped base true digits else isGrouped 10 false s
      if s.contains 0x5f && !grouped then .error .malformed else .ok n

/-- A number of 64 bits with a sign, as it is given in a command line. -/
def parse (s : Bytes) : Except Problem Int := do
  let inRange (n : Int) : Except Problem Int :=
    if least64 ≤ n ∧ n ≤ greatest64 then .ok n else .error .outOfRange
  match s with
  | 0x2d :: rest => inRange (-(← magnitude rest : Nat))
  | 0x2b :: rest => inRange (← magnitude rest : Nat)
  | _ => inRange (← magnitude s : Nat)

end ClassForge.Numeral
