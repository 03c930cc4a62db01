import ClassForge.Text.Quoted

/-! Field and method descriptors, and the operand stack words of what they describe. -/

namespace ClassForge.Descriptor

inductive Error where
  | malformedMethod (descriptor : Bytes)
  | malformedField (descriptor : Bytes)
  | truncated (descriptor : Bytes)
  | unterminated (descriptor : Bytes)
  | badType (b : UInt8) (descriptor : Bytes)
deriving DecidableEq, Repr

def Error.message : Error → Bytes
  | malformedMethod d => "assembler: malformed method descriptor " ++ Quoted.text d
  | malformedField d => "assembler: malformed field descriptor " ++ Quoted.text d
  | truncated d => "assembler: truncated descriptor " ++ Quoted.text d
  | unterminated d => "assembler: unterminated class name in " ++ Quoted.text d
  | badType b d => "assembler: bad type " ++ Quoted.byte b ++ " in descriptor " ++ Quoted.text d

/-- The words and the length of the field type that a part of the descriptor `whole` starts
with. An array is one word whatever its elements are. -/
def fieldType (whole : Bytes) : Bytes → Except Error (Nat × Nat)
  | [] => .error (.truncated whole)
  | b :: rest =>
    if b ∈ ([0x42, 0x43, 0x46, 0x49, 0x53, 0x5a] : Bytes) then .ok (1, 1)
    else if b ∈ ([0x44, 0x4a] : Bytes) then .ok (2, 1)
    else if b = 0x4c then
      match rest.idxOf? 0x3b with
      | some i => .ok (1, i + 2)
      | none => .error (.unterminated whole)
    else if b = 0x5b then
      match fieldType whole rest with
      | .ok (_, length) => .ok (1, length + 1)
      | .error e => .error e
    else .error (.badType b whole)

/-- The words of a field descriptor. -/
def fieldWords (d : Bytes) : Except Error Nat :=
  match fieldType d d with
  | .ok (size, length) => if length = d.length then .ok size else .error (.malformedField d)
  | .error e => .error e

/-- The words of the arguments up to the closing parenthesis, and what follows it. The first
`skip` bytes belong to an argument that is counted in `total`. -/
def arguments (whole : Bytes) (total : Nat) : (skip : Nat) → Bytes → Except Error (Nat × Bytes)
  | _, [] => .error (.malformedMethod whole)
  | skip + 1, _ :: rest => arguments whole total skip rest
  | 0, b :: rest =>
    if b = 0x29 then .ok (total, rest)
    else
      match fieldType whole (b :: rest) with
      | .ok (size, length) => arguments whole (total + size) (length - 1) rest
      | .error e => .error e

/-- The words of the arguments and of the result of a method descriptor. The result of a
descriptor that has `V` behind its arguments is none, whatever else follows. -/
def methodWords (d : Bytes) : Except Error (Nat × Nat) :=
  match d with
  | 0x28 :: rest =>
    match arguments d 0 0 rest with
    | .error e => .error e
    | .ok (args, 0x56 :: _) => .ok (args, 0)
    | .ok (args, result) =>
      match fieldType d result with
      | .error e => .error e
      | .ok (size, length) =>
        if length = result.length then .ok (args, size) else .error (.malformedMethod d)
  | _ => .error (.malformedMethod d)

end ClassForge.Descriptor
