import ClassForge.Assembly.Instruction

/-! Instruction sequences. A sequence only grows, and it is sealed when it has been assembled.
Labels are made before the place they mark is known, and each is placed once. -/

namespace ClassForge

/-- A call that the rules of a sequence forbid outright. -/
inductive Misuse where
  | sealed
  | notLocal (op : UInt8)
  | notJump (op : UInt8)
deriving DecidableEq, Repr

def Misuse.message : Misuse → Bytes
  | sealed => "assembler: append to a sealed instruction sequence"
  | notLocal op =>
    "assembler: " ++ Opcode.nameOfByte op ++ " is not a local variable instruction"
  | notJump op => "assembler: " ++ Opcode.nameOfByte op ++ " is not a jump instruction"

inductive CodeError where
  | misuse (cause : Misuse)
  | placedTwice (label : Label)
  | foreignLabel (label : Label)
deriving DecidableEq, Repr

def CodeError.message : CodeError → Bytes
  | misuse cause => cause.message
  | placedTwice label => "assembler: label " ++ label.name ++ " placed twice"
  | foreignLabel label =>
    "assembler: label " ++ label.name ++ " belongs to another instruction sequence"

/-- The sequence with the number `serial`. `places` has for each of its labels the index of the
entry it marks, once it is placed. -/
structure Code where
  serial : Nat := 0
  entries : Array Instruction := #[]
  places : Array (Option Nat) := #[]
  isSealed : Bool := false
deriving DecidableEq, Repr

namespace Code

abbrev Coded := EStateM CodeError Code

def append (instruction : Instruction) : Coded Unit := fun code =>
  if code.isSealed then .error (.misuse .sealed) code
  else .ok () { code with entries := code.entries.push instruction }

def newLabel : Coded Label := fun code =>
  .ok ⟨code.serial, code.places.size⟩ { code with places := code.places.push none }

/-- The index of the entry that a label of the sequence marks. -/
def place? (code : Code) (label : Label) : Option Nat :=
  (code.places[label.number]?).join

def owns (code : Code) (label : Label) : Bool :=
  label.owner == code.serial && label.number < code.places.size

/-- Binds a label to the end of the sequence. The label counts as placed before the entry is
appended, also when the sequence turns out to be sealed. -/
def place (label : Label) : Coded Unit := fun code =>
  if !code.owns label then .error (.foreignLabel label) code
  else if (code.place? label).isSome then .error (.placedTwice label) code
  else
    append (.mark label)
      { code with places := code.places.setIfInBounds label.number (some code.entries.size) }

def emit (op : UInt8) : Coded Unit :=
  append (.simple op)

def pushInt (value : Int32) : Coded Unit :=
  append (.pushInt value)

def pushText (text : Bytes) : Coded Unit :=
  append (.pushText text)

def access (op : UInt8) (slot : Int) : Coded Unit :=
  match LocalOp.ofByte? op with
  | some op => append (.access op slot)
  | none => throw (.misuse (.notLocal op))

def jump (op : UInt8) (target : Label) : Coded Unit :=
  match JumpOp.ofByte? op with
  | some op => append (.jump op target)
  | none => throw (.misuse (.notJump op))

def field (op : UInt8) (member : Member) : Coded Unit :=
  append (.field op member)

def invoke (op : UInt8) (member : Member) : Coded Unit :=
  append (.invoke op member)

def type (op : UInt8) (name : Bytes) : Coded Unit :=
  append (.type op name)

def listing (code : Code) : List Bytes :=
  code.entries.toList.map Instruction.render

def sealed (code : Code) : Code :=
  { code with isSealed := true }

end Code

end ClassForge
