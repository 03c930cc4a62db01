import ClassForge.Bytes

/-! Reading a text from its front. -/

namespace ClassForge.Toml

/-- A step that takes something from the front of a text, or fails. -/
abbrev Reading := StateT Bytes Option

namespace Reading

def peek? : Reading (Option UInt8) :=
  return (← get).head?

/-- Takes a given byte. -/
def byte (b : UInt8) : Reading Unit := do
  match ← get with
  | a :: rest => if a == b then set rest else failure
  | [] => failure

/-- Takes a given text if it is there, and tells whether it was. -/
def skip? (lead : Bytes) : Reading Bool := do
  let s ← get
  if lead.isPrefixOf s then
    set (s.drop lead.length)
    return true
  else return false

/-- Takes the longest run of bytes of a kind. -/
def run (p : UInt8 → Bool) : Reading Bytes := do
  let s ← get
  set (s.dropWhile p)
  return s.takeWhile p

def isBlank (b : UInt8) : Bool :=
  b == 0x20 || b == 0x09

def isNewline (b : UInt8) : Bool :=
  b == 0x0a || b == 0x0d

def blanks : Reading Unit :=
  modify (·.dropWhile isBlank)

/-- A text without the blanks, newlines and comments in front of it. -/
def dropGaps (inComment : Bool) : Bytes → Bytes
  | [] => []
  | b :: rest =>
    if inComment then dropGaps (b != 0x0a) rest
    else if isBlank b || isNewline b then dropGaps false rest
    else if b == 0x23 then dropGaps true rest
    else b :: rest

def gaps : Reading Unit :=
  modify (dropGaps false)

/-- The end of a line, in front of which there may be blanks and a comment. -/
def lineEnd : Reading Unit := do
  blanks
  match ← peek? with
  | none => pure ()
  | some b => if isNewline b || b == 0x23 then gaps else failure

/-- Repeats a step until it gives nothing. A step that takes nothing fails. -/
def collect {α : Type} (step : Reading (Option α)) (done : List α) (s : Bytes) :
    Option (List α × Bytes) :=
  match step s with
  | none => none
  | some (none, rest) => some (done.reverse, rest)
  | some (some a, rest) =>
    if rest.length < s.length then collect step (a :: done) rest else none
termination_by s.length

def many {α : Type} (step : Reading (Option α)) : Reading (List α) :=
  collect step []

/-- Whether a step takes all of a text. -/
def accepts {α : Type} (step : Reading α) (s : Bytes) : Bool :=
  match step s with
  | some (_, []) => true
  | _ => false

end Reading

end ClassForge.Toml
