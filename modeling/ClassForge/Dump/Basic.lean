import ClassForge.Compile.Emitter

/-! The debug view of a compilation. It is written and read by a codec, which is given. -/

namespace ClassForge

structure Dump.Symbol where
  name : Bytes := []
  type : Bytes := []
  slot : Int := 0
deriving DecidableEq, Repr

/-- The record that is dumped. A listing that is absent is not an empty one. -/
structure Dump where
  program : Bytes := []
  symbols : List Dump.Symbol := []
  instructions : Option (List Bytes) := none
deriving DecidableEq, Repr

namespace Dump

/-- A variable as it stands in a dump. -/
def Symbol.ofVariable (v : Variable) : Symbol :=
  ⟨v.name, v.type.name, v.slot⟩

/-- What writes records and reads them. Where it fails, it says why. -/
structure Codec where
  marshal : Dump → Except Bytes Bytes
  unmarshal : Bytes → Except Bytes Dump

structure Unreadable where
  cause : Bytes
deriving DecidableEq, Repr

def Unreadable.message (e : Unreadable) : Bytes :=
  "internal: unmarshal dump: " ++ e.cause

/-- Writes the variables in slot order and the listing of a program. -/
def write (codec : Codec) (program : Bytes) (symbols : List Variable)
    (listing : Option (List Bytes)) : Except Bytes Bytes :=
  codec.marshal ⟨program, symbols.map .ofVariable, listing⟩

def read (codec : Codec) (data : Bytes) : Except Unreadable Dump :=
  (codec.unmarshal data).mapError .mk

end Dump

/-- The debug view of a compilation, written. -/
def Compilation.dump (codec : Dump.Codec) (c : Compilation) : Except Bytes Bytes :=
  Dump.write codec c.artifact.program c.table.declared.toList (some c.artifact.listing)

end ClassForge
