import ClassForge.Command.Standard

/-! The command on the files, the input and the output of the system. -/

namespace ClassForge

def textOf (s : Bytes) : String :=
  String.ofList (Utf8.chars s)

/-- What the system says about a path. -/
def problemOf (e : IO.Error) : FileProblem :=
  let byCode (code : UInt32) : FileProblem :=
    if code = 20 then .notDirectory
    else if code = 21 then .isDirectory
    else if code = 36 then .nameTooLong
    else .other (Bytes.ofString e.toString)
  match e with
  | .noFileOrDirectory .. => .notFound
  | .inappropriateType _ code _ => byCode code
  | .invalidArgument _ code _ => byCode code
  | _ => .other (Bytes.ofString e.toString)

def attempt {α : Type} (operation : FileOperation) (path : Bytes) (x : IO α) :
    IO (Except FileError α) := do
  match ← x.toBaseIO with
  | .ok a => return .ok a
  | .error e => return .error ⟨operation, path, problemOf e⟩

/-- A directory is opened, but its reading fails. -/
def readFile (path : Bytes) : IO (Except FileError Bytes) := do
  match ← attempt .opening path (IO.FS.readBinFile (textOf path)) with
  | .ok data => return .ok data.data.toList
  | .error e => return .error (if e.problem = .isDirectory then { e with operation := .reading } else e)

def systemFiles : FileAccess IO where
  stat path := attempt .asking path do
    discard (IO.FS.Handle.mk (textOf path) .read)
  read := readFile
  write path data := attempt .opening path do
    IO.FS.writeBinFile (textOf path) ⟨data.toArray⟩
  append path data := attempt .opening path do
    let file ← IO.FS.Handle.mk (textOf path) .append
    file.write ⟨data.toArray⟩

partial def readAll (stream : IO.FS.Stream) (done : ByteArray) : IO ByteArray := do
  let chunk ← stream.read 65536
  if chunk.isEmpty then return done else readAll stream (done ++ chunk)

/-- The input is only read for a program that is run. -/
def inputFor (arguments : List Bytes) : IO Input := do
  match Options.parse arguments with
  | .ok o =>
    if o.run then return ⟨(← readAll (← IO.getStdin) .empty).data.toList, false⟩
    else return ⟨[], false⟩
  | .error _ => return ⟨[], false⟩

/-- More instructions than a class can have. A compiled program executes each of them at most
once. -/
def instructionLimit : Nat := 65536

end ClassForge

open ClassForge in
def main (args : List String) : IO UInt32 := do
  let arguments := args.map Bytes.ofString
  let report ← Command.run systemFiles (.standard systemFiles) arguments
    (← inputFor arguments) instructionLimit
  (← IO.getStdout).write ⟨report.stdout.toArray⟩
  let stderr ← IO.getStderr
  stderr.write ⟨report.stderr.toArray⟩
  match report.error with
  | none => return 0
  | some (.options .help) => return 0
  | some e =>
    stderr.putStrLn ("Error: " ++ textOf e.message)
    return 1
