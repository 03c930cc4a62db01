import ClassForge.Bytes

/-! Paths as text, with `/` between their parts. -/

namespace ClassForge.Path

def slash : UInt8 := 0x2f

/-- The parts between the slashes, empty ones included. -/
def split (path : Bytes) : List Bytes :=
  path.splitOn slash

def isAbsolute : Bytes → Bool
  | b :: _ => b == slash
  | [] => false

/-- The parts joined by slashes. -/
def unsplit (parts : List Bytes) : Bytes :=
  List.intercalate [slash] parts

/-- Puts a part behind others, which are in reverse. Two dots take a part away if there is one that
they can take, and at the root they stay there. -/
def pushPart (rooted : Bool) (done : List Bytes) (part : Bytes) : List Bytes :=
  if part == [] || part == ("." : Bytes) then done
  else if part == (".." : Bytes) then
    match done with
    | [] => if rooted then [] else [part]
    | last :: rest => if last == (".." : Bytes) then part :: done else rest
  else part :: done

/-- The shortest path that is the same by its text alone. -/
def clean (path : Bytes) : Bytes :=
  let rooted := isAbsolute path
  let parts := ((split path).foldl (pushPart rooted) []).reverse
  if rooted then slash :: unsplit parts
  else if parts.isEmpty then "."
  else unsplit parts

/-- A path below a directory, cleaned. Without a directory it is the path itself. -/
def join (dir path : Bytes) : Bytes :=
  if !dir.isEmpty then clean (dir ++ slash :: path)
  else if !path.isEmpty then clean path
  else []

/-- The directory that a path lies in: all up to its last slash, cleaned. -/
def dirOf (path : Bytes) : Bytes :=
  clean (path.reverse.dropWhile (· != slash)).reverse

end ClassForge.Path
