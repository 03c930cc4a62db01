import ClassForge.Files.Error

/-! Logs. What sets up a log is given; a log that is set up takes messages. -/

namespace ClassForge

structure Log (m : Type → Type) where
  info : (message : Bytes) → m Unit

structure Logger (m : Type → Type) where
  /-- Sets up a log of the given verbosity in a file or, without one, on the terminal. -/
  configure : (verbosity : Int) → (file : Option Bytes) → m (Except FileError (Log m))

variable {m : Type → Type} [Monad m]

/-- Appends messages to the file from a verbosity of one on. The file is created at once. -/
def Logger.appending (files : FileAccess m) : Logger m where
  configure verbosity file := do
    match file with
    | none => return .ok ⟨fun _ => pure ()⟩
    | some path =>
      match ← files.append path [] with
      | .error e => return .error e
      | .ok _ =>
        return .ok ⟨fun message =>
          if verbosity > 0 then discard (files.append path (message ++ "\n")) else pure ()⟩

end ClassForge
