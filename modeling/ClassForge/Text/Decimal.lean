import ClassForge.Bytes

/-! Decimal numbers: an optional sign and digits. -/

namespace ClassForge.Decimal

def ofNat (n : Nat) : Bytes :=
  (Nat.toDigits 10 n).map fun c => c.toNat.toUInt8

def ofInt (n : Int) : Bytes :=
  if n < 0 then "-" ++ ofNat n.natAbs else ofNat n.natAbs

/-- The value of a run of digits, the most significant first. -/
def value (digits : Bytes) : Nat :=
  digits.foldl (fun n d => n * 10 + (d.toNat - 0x30)) 0

/-- The number written by an optional sign and one or more digits. -/
def parse? (s : Bytes) : Option Int :=
  let digits := match s with
    | 0x2b :: rest => rest
    | 0x2d :: rest => rest
    | _ => s
  if digits.isEmpty || !digits.all Bytes.isDigit then none
  else if s.head? == some 0x2d then some (-(value digits : Int))
  else some (value digits)

/-- As `parse?`, for the numbers of 32 bits with a sign. -/
def parseInt32? (s : Bytes) : Option Int32 :=
  match parse? s with
  | some n => if -2147483648 ≤ n ∧ n ≤ 2147483647 then some (Int32.ofInt n) else none
  | none => none

end ClassForge.Decimal
