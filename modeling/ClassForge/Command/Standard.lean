import ClassForge.Command.Basic
import ClassForge.Dump.CborCodec
import ClassForge.Settings.TomlReader

/-! What the command uses by default: settings in TOML, a log that is appended to, and dumps as
concise binary objects. -/

namespace ClassForge.Command

def Libraries.standard {m : Type → Type} [Monad m] (files : FileAccess m) : Libraries m where
  settings := Settings.readToml
  logger := Logger.appending files
  codec := Dump.cbor

end ClassForge.Command
