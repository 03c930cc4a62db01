import ClassForge.Text.Decimal
import ClassForge.Text.Space
import ClassForge.Text.Utf8

/-! The input of a running program. Reads take tokens or whole lines from one cursor. -/

namespace ClassForge

/-- The bytes that have not been read. After the last of them a read finds the end of the input,
or fails if the input is broken. -/
structure Input where
  rest : Bytes
  isBroken : Bool := false
deriving DecidableEq, Repr

inductive InputError where
  | noToken
  | noLine
  /-- The token is no number of 32 bits. -/
  | mismatch (token : Bytes)
  | broken
deriving DecidableEq, Repr

namespace Input

/-- The first character of a text, and the number of its bytes. -/
def firstChar (a : UInt8) (rest : Bytes) : Char × Nat :=
  match Utf8.first? (a :: rest) with
  | some (c, more) => (c, more + 1)
  | none => (Utf8.replacement, 1)

/-- The longest run of characters of `s` that `take` accepts, behind those of `taken`, which are
in reverse, and what follows it. -/
def span (take : Char → Bool) (taken : List Char) : (skip : Nat) → (s : Bytes) → List Char × Bytes
  | _, [] => (taken.reverse, [])
  | skip + 1, _ :: rest => span take taken skip rest
  | 0, a :: rest =>
    let (c, width) := firstChar a rest
    if take c then span take (c :: taken) (width - 1) rest else (taken.reverse, a :: rest)

/-- A read of an `α`. One that fails has consumed input too, and leaves the rest. -/
abbrev Read := EStateM InputError Input

/-- Reads a token of characters other than white space, after skipping white space. The
delimiter behind the token stays unread. -/
def token : Read Bytes := fun input =>
  let (_, rest) := span Space.isSpaceChar [] 0 input.rest
  if rest.isEmpty then .error (if input.isBroken then .broken else .noToken) { input with rest }
  else
    let (chars, rest) := span (!Space.isSpaceChar ·) [] 0 rest
    if rest.isEmpty && input.isBroken then .error .broken { input with rest }
    else .ok (Utf8.encode chars) { input with rest }

def nextInt : Read Int32 := do
  let token ← token
  match Decimal.parseInt32? token with
  | some n => return n
  | none => throw (.mismatch token)

/-- A line without its end. -/
def withoutEnd (line : Bytes) : Bytes :=
  Bytes.dropTail [0x0d] (Bytes.dropTail [0x0a] line)

/-- Reads the rest of the line. -/
def nextLine : Read Bytes := fun input =>
  match input.rest.idxOf? 0x0a with
  | some i => .ok (withoutEnd (input.rest.take (i + 1))) { input with rest := input.rest.drop (i + 1) }
  | none =>
    if input.isBroken then .error .broken { input with rest := [] }
    else if input.rest.isEmpty then .error .noLine input
    else .ok (withoutEnd input.rest) { input with rest := [] }

end Input

def InputError.message : InputError → Bytes
  | noToken => "java.util.NoSuchElementException"
  | noLine => "java.util.NoSuchElementException: No line found"
  | mismatch token =>
    "java.util.InputMismatchException: For input string: \"" ++ token ++ "\""
  | broken => "input broken"

end ClassForge
