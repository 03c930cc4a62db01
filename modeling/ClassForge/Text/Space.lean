import ClassForge.Bytes

/-! White space. Source text is looked at byte by byte, program input character by character. -/

namespace ClassForge.Space

def isSpaceByte (b : UInt8) : Bool :=
  0x09 ≤ b && b ≤ 0x0d || b == 0x20 || b == 0x85 || b == 0xa0

def isSpaceChar (c : Char) : Bool :=
  let n := c.toNat
  0x09 ≤ n && n ≤ 0x0d || n == 0x20 || n == 0x85 || n == 0xa0 || n == 0x1680 ||
    0x2000 ≤ n && n ≤ 0x200a || n == 0x2028 || n == 0x2029 || n == 0x202f || n == 0x205f ||
    n == 0x3000

end ClassForge.Space
