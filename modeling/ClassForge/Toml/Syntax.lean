import ClassForge.Bytes

/-! What stands in a TOML document: tables with keys and values. -/

namespace ClassForge.Toml

/-- A key in its parts, from the outermost table inwards. -/
abbrev Key := List Bytes

/-- A value as it is written. Of numbers with a fraction, and of dates and times, it only matters
that they are well formed. -/
inductive Literal where
  | text (s : Bytes)
  | integer (n : Int)
  | boolean (b : Bool)
  | float
  | moment
  | array (items : List Literal)
  | table (entries : List (Key × Literal))
deriving Repr

inductive Statement where
  | entry (key : Key) (value : Literal)
  | table (key : Key)
  /-- Begins another table in an array of tables. -/
  | tableArray (key : Key)
deriving Repr

def isBare (b : UInt8) : Bool :=
  Bytes.isLetter b || Bytes.isDigit b || b == 0x5f || b == 0x2d

def escapeByte (b : UInt8) : Bytes :=
  if b == 0x22 then "\\\""
  else if b == 0x5c then "\\\\"
  else if b == 0x08 then "\\b"
  else if b == 0x09 then "\\t"
  else if b == 0x0a then "\\n"
  else if b == 0x0c then "\\f"
  else if b == 0x0d then "\\r"
  else if b < 0x20 || b == 0x7f then "\\u" ++ Bytes.hex 4 b.toNat
  else [b]

/-- A part of a key is quoted unless it is bare. -/
def Key.renderPart (part : Bytes) : Bytes :=
  if !part.isEmpty && part.all isBare then part
  else "\"" ++ part.flatMap escapeByte ++ "\""

def Key.render (key : Key) : Bytes :=
  List.intercalate (".") (key.map Key.renderPart)

end ClassForge.Toml
