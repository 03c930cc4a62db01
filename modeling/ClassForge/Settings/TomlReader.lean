import ClassForge.Settings.Basic
import ClassForge.Text.Utf8
import ClassForge.Toml.Document

/-! Settings in a TOML document. -/

namespace ClassForge

/-- A single setting. -/
inductive Setting where
  | dir
  | extension
  | verbosity
  | logFile
  | dump
deriving DecidableEq, Repr

namespace Setting

def all : List Setting :=
  [dir, extension, verbosity, logFile, dump]

/-- The table that the setting is in. -/
def group : Setting → Bytes
  | dir | extension => "output"
  | verbosity | logFile => "log"
  | dump => "dump"

def name : Setting → Bytes
  | dir => "dir"
  | extension => "extension"
  | verbosity => "verbosity"
  | logFile => "file"
  | dump => "enabled"

/-- Sets the setting to a value of its type. -/
def store (settings : Settings) : Setting → Toml.Literal → Option Settings
  | dir, .text s => some { settings with dir := s }
  | extension, .text s => some { settings with extension := s }
  | verbosity, .integer n => some { settings with verbosity := n }
  | logFile, .text s => some { settings with logFile := s }
  | dump, .boolean b => some { settings with dump := b }
  | _, _ => none

end Setting

namespace Settings

/-- A character with the case of its letter left out, for the letters that occur in names. The long s
and the Kelvin sign are forms of s and k. -/
def foldCase (c : Char) : Char :=
  if c.toNat = 0x17f then 's' else if c.toNat = 0x212a then 'k' else c.toLower

/-- The name that a key stands for: the same one, or else the first that differs in case only. -/
def match? (names : List Bytes) (key : Bytes) : Option Bytes :=
  let folded (s : Bytes) : List Char := (Utf8.chars s).map foldCase
  (names.find? (· == key)).orElse fun _ => names.find? fun name => folded name == folded key

/-- Settings together with the keys that have been understood. -/
abbrev Understood := Settings × List Toml.Key

/-- Reads the entries of a table. -/
def readGroup (key : Bytes) (settings : List Setting) :
    Toml.Entries → Understood → Option Understood
  | [], understood => some understood
  | (k, node) :: rest, (found, keys) =>
    match match? (settings.map Setting.name) k with
    | none => readGroup key settings rest (found, keys)
    | some name =>
      match settings.find? (·.name == name), node with
      | some setting, .value v =>
        match setting.store found v with
        | some found => readGroup key settings rest (found, [key, k] :: keys)
        | none => none
      | _, _ => none

/-- Reads the tables of a document. -/
def readGroups (document : Toml.Document) : Toml.Entries → Understood → Option Understood
  | [], understood => some understood
  | (key, node) :: rest, (found, keys) =>
    match match? (Setting.all.map Setting.group) key with
    | none => readGroups document rest (found, keys)
    | some group =>
      match node with
      | .table number =>
        match readGroup key (Setting.all.filter (·.group == group)) (document.entries number)
          (found, [key] :: keys) with
        | some understood => readGroups document rest understood
        | none => none
      | _ => none

/-- Reads settings from a TOML document. Of keys that differ in case only, the last one in the
document counts. -/
def readToml : SettingsReader := fun text usual =>
  match Toml.Document.parse text with
  | none => .error "invalid document"
  | some document =>
    match readGroups document document.root (usual, []) with
    | none => .error "incompatible types"
    | some (found, keys) =>
      .ok (found, (document.keys.filter (!keys.contains ·)).map Toml.Key.render)

end Settings

end ClassForge
