import ClassForge.Files.Error
import ClassForge.Files.Path

/-! The settings of the compiler, which a file next to the source may give. What reads the text of
that file is given. -/

namespace ClassForge

structure Settings where
  /-- The directory for class files. -/
  dir : Bytes := "."
  /-- The extension of class files, without its point. -/
  extension : Bytes := "class"
  verbosity : Int := 0
  /-- The file for log messages; without one they go to the terminal. -/
  logFile : Bytes := []
  dump : Bool := false
  /-- The file that the settings come from, if they do. -/
  path : Bytes := []
deriving DecidableEq, Repr

/-- What reads the text of a file of settings. It puts the values of the file in the place of the
settings it gets, and tells which keys stand for none. Where it fails, it says why. -/
abbrev SettingsReader :=
  (text : Bytes) → Settings → Except Bytes (Settings × List Bytes)

inductive SettingsError where
  | unreadable (path : Bytes) (cause : FileError)
  | malformed (path cause : Bytes)
  | unknownKeys (path : Bytes) (keys : List Bytes)
  | negativeVerbosity (path : Bytes)
  | unavailable (cause : FileError)
deriving DecidableEq, Repr

def SettingsError.message : SettingsError → Bytes
  | unreadable path cause => "cannot read " ++ path ++ ": " ++ cause.message
  | malformed path cause => "parse error in " ++ path ++ ": " ++ cause
  | unknownKeys path keys => "unknown keys in " ++ path ++ ": " ++ List.intercalate (", ") keys
  | negativeVerbosity path => path ++ ": log.verbosity must not be negative"
  | unavailable cause => cause.message

namespace Settings

/-- Fills in what is left empty, and takes paths from the directory of the file of the settings. -/
def complete (path : Bytes) (s : Settings) : Settings :=
  let below (p : Bytes) : Bytes :=
    if Path.isAbsolute p then p else Path.join (Path.dirOf path) p
  let dir := if s.dir.isEmpty then ("." : Bytes) else s.dir
  let extension := if s.extension.isEmpty then ("class" : Bytes) else s.extension
  { s with
    dir := below dir
    extension := Bytes.dropLead "." extension
    logFile := if s.logFile.isEmpty then [] else below s.logFile
    path }

/-- The settings in a file at a path with a given text. -/
def ofText (reader : SettingsReader) (path text : Bytes) : Except SettingsError Settings :=
  match reader text {} with
  | .error cause => .error (.malformed path cause)
  | .ok (found, unknown) =>
    if !unknown.isEmpty then .error (.unknownKeys path unknown)
    else if found.verbosity < 0 then .error (.negativeVerbosity path)
    else .ok (complete path found)

def load {m : Type → Type} [Monad m] (files : FileAccess m) (reader : SettingsReader)
    (path : Bytes) : m (Except SettingsError Settings) := do
  match ← files.read path with
  | .error e => return .error (.unreadable path e)
  | .ok text => return ofText reader path text

def fileName : Bytes := "knightcode.toml"

/-- The settings in the file for them in a directory, or the usual ones if there is no such file. -/
def findIn {m : Type → Type} [Monad m] (files : FileAccess m) (reader : SettingsReader)
    (dir : Bytes) : m (Except SettingsError Settings) := do
  let path := Path.join dir fileName
  match ← files.stat path with
  | .ok _ => load files reader path
  | .error e =>
    if e.problem = .notFound then return .ok {}
    else return .error (.unavailable e)

end Settings

end ClassForge
