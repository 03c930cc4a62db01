import ClassForge.Command.Options
import ClassForge.Compile.Emitter
import ClassForge.Dump.Basic
import ClassForge.Files.ClassStore
import ClassForge.Files.Log
import ClassForge.Machine.Run
import ClassForge.Settings.Basic
import ClassForge.Source.Parser

/-! The command: it compiles a source file and writes the class, and on request lists, dumps and
runs it. The reader of its settings, its log and the codec of its dumps are given. -/

namespace ClassForge

inductive CommandError where
  | options (cause : OptionError)
  | settings (cause : SettingsError)
  | file (cause : FileError)
  | source (cause : SourceError)
  | compile (cause : CompileError StoreError)
  | dump (cause : Bytes)
  | run (cause : RunError)
deriving DecidableEq, Repr

def CommandError.message : CommandError → Bytes
  | options cause => cause.message
  | settings cause => cause.message
  | file cause => cause.message
  | source cause => cause.message
  | compile cause => cause.message StoreError.message
  | dump cause => cause
  | run cause => cause.message

/-- What the command leaves besides files. -/
structure CommandReport where
  stdout : Bytes := []
  stderr : Bytes := []
  error : Option CommandError := none
deriving DecidableEq, Repr

namespace Command

/-- What the command uses besides files. -/
structure Libraries (m : Type → Type) where
  settings : SettingsReader
  logger : Logger m
  codec : Dump.Codec

variable {m : Type → Type} [Monad m]

/-- The settings, where the options take precedence. -/
def settings (files : FileAccess m) (reader : SettingsReader) (o : Options) :
    m (Except SettingsError Settings) := do
  let found ←
    if o.settingsPath.isEmpty then Settings.findIn files reader (Path.dirOf o.input)
    else Settings.load files reader o.settingsPath
  return found.map fun s => { s with
    dir := if o.outputDir.isEmpty then s.dir else o.outputDir
    verbosity := if o.verbosity ≥ 0 then o.verbosity else s.verbosity
    dump := s.dump || o.dump }

/-- Where the log is to go, if not to the terminal. -/
def logFile? (s : Settings) : Option Bytes :=
  if s.logFile.isEmpty then none else some s.logFile

/-- Sets up the log. Its first message tells where the settings come from, unless they are the usual
ones. -/
def openLog (logger : Logger m) (s : Settings) : m (Except FileError (Log m)) := do
  match ← logger.configure s.verbosity (logFile? s) with
  | .error e => return .error e
  | .ok log =>
    if !s.path.isEmpty then log.info ("configuration from " ++ s.path)
    return .ok log

/-- Compiles the source file at a path. -/
def compileFrom (files : FileAccess m) (s : Settings) (input : Bytes) :
    m (Except CommandError Compilation) := do
  match ← files.read input with
  | .error e => return .error (.file e)
  | .ok source =>
    match Program.parse source with
    | .error e => return .error (.source e)
    | .ok program =>
      let store : ClassStore := ⟨s.dir, s.extension⟩
      match ← program.compile (store.write files) with
      | .error e => return .error (.compile e)
      | .ok compilation => return .ok compilation

/-- The report on a finished compilation, without its dump and its run. -/
def announce (o : Options) (c : Compilation) : Bytes :=
  let line (s : Bytes) : Bytes := s ++ "\n"
  line ("Compiled " ++ o.input ++ " to " ++ c.artifact.path) ++
    if o.listing then c.artifact.listing.flatMap line else []

/-- Where the dump of a program goes. -/
def dumpPath (s : Settings) (program : Bytes) : Bytes :=
  Path.join s.dir (program ++ ".dump.cbor")

def writeDump (files : FileAccess m) (codec : Dump.Codec) (log : Log m) (s : Settings)
    (c : Compilation) : m (Except CommandError Unit) := do
  match c.dump codec with
  | .error cause => return .error (.dump cause)
  | .ok data =>
    let path := dumpPath s c.artifact.program
    match ← files.write path data with
    | .error e => return .error (.file e)
    | .ok _ =>
      log.info ("dump written to " ++ path)
      return .ok ()

/-- Writes the dump if the settings ask for one. -/
def dumpOnRequest (files : FileAccess m) (codec : Dump.Codec) (log : Log m) (s : Settings)
    (c : Compilation) : m (Except CommandError Unit) :=
  if s.dump then writeDump files codec log s c else return .ok ()

/-- Runs a class and adds its output to the report. -/
def runInto (stdout : Bytes) (data : Bytes) (input : Input) (limit : Nat) : CommandReport :=
  let r := runClass data input {} limit
  { stdout := stdout ++ r.output.bytes, error := r.error.map .run }

/-- What is left to do once the class is written. -/
def conclude (files : FileAccess m) (codec : Dump.Codec) (log : Log m) (o : Options) (s : Settings)
    (c : Compilation) (input : Input) (limit : Nat) : m CommandReport := do
  let stdout := announce o c
  match ← dumpOnRequest files codec log s c with
  | .error e => return { stdout, error := some e }
  | .ok _ =>
    if o.run then
      log.info ("run " ++ c.artifact.program)
      return runInto stdout c.artifact.bytes input limit
    else return { stdout }

/-- Runs the command with its arguments and its input. A run of the program ends after `limit`
instructions at the latest. -/
def run (files : FileAccess m) (lib : Libraries m) (arguments : List Bytes) (input : Input)
    (limit : Nat) : m CommandReport := do
  match Options.parse arguments with
  | .error e => return { stderr := Options.complaint e, error := some (.options e) }
  | .ok o =>
    match ← settings files lib.settings o with
    | .error e => return { error := some (.settings e) }
    | .ok s =>
      match ← openLog lib.logger s with
      | .error e => return { error := some (.file e) }
      | .ok log =>
        match ← compileFrom files s o.input with
        | .error e => return { error := some e }
        | .ok c => conclude files lib.codec log o s c input limit

end Command

end ClassForge
