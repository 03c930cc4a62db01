import ClassForge.Text.Numeral
import ClassForge.Text.Quoted

/-! The options of the command line. An option has one or two dashes. Its value follows behind an
equals sign or as the next argument, and a switch has one only behind an equals sign. -/

namespace ClassForge

structure Options where
  input : Bytes := []
  outputDir : Bytes := []
  settingsPath : Bytes := []
  verbosity : Int := -1
  dump : Bool := false
  listing : Bool := false
  run : Bool := false
deriving DecidableEq, Repr

inductive ValueProblem where
  | malformed
  | outOfRange
deriving DecidableEq, Repr

def ValueProblem.message : ValueProblem → Bytes
  | malformed => "parse error"
  | outOfRange => "value out of range"

inductive OptionError where
  | badSyntax (argument : Bytes)
  | undefined (name : Bytes)
  | needsArgument (name : Bytes)
  | badValue (value name : Bytes) (problem : ValueProblem)
  | badSwitch (value name : Bytes)
  | help
  | noSource
deriving DecidableEq, Repr

def OptionError.message : OptionError → Bytes
  | badSyntax argument => "bad flag syntax: " ++ argument
  | undefined name => "flag provided but not defined: -" ++ name
  | needsArgument name => "flag needs an argument: -" ++ name
  | badValue value name problem =>
    "invalid value " ++ Quoted.text value ++ " for flag -" ++ name ++ ": " ++ problem.message
  | badSwitch value name =>
    "invalid boolean value " ++ Quoted.text value ++ " for -" ++ name ++ ": " ++
      ValueProblem.malformed.message
  | help => "flag: help requested"
  | noSource => "no source file given"

namespace Options

def usage : Bytes :=
  "Usage of kcc:\n" ++
  "  -S\tprint the instruction listing of main\n" ++
  "  -config string\n" ++
  "    \tthe configuration file, default knightcode.toml next to the source\n" ++
  "  -dump\n" ++
  "    \twrite <program>.dump.cbor next to the class file\n" ++
  "  -i string\n" ++
  "    \tthe KnightCode source file, may also be given as the first argument\n" ++
  "  -o string\n" ++
  "    \tthe directory the class file is written to, overrides [output] dir\n" ++
  "  -run\n" ++
  "    \trun the compiled program on stdin and stdout\n" ++
  "  -v int\n" ++
  "    \tlog verbosity, overrides [log] verbosity (default -1)\n"

/-- What is written to the terminal for an error: the usage, and in front of it what is wrong with
an option. -/
def complaint : OptionError → Bytes
  | .help => usage
  | .noSource => usage
  | e => e.message ++ "\n" ++ usage

def boolean? (s : Bytes) : Option Bool :=
  if [("1" : Bytes), "t", "T", "true", "TRUE", "True"].contains s then some true
  else if [("0" : Bytes), "f", "F", "false", "FALSE", "False"].contains s then some false
  else none

/-- The options that only switch something on or off. -/
def switch? (name : Bytes) : Option (Options → Bool → Options) :=
  if name == ("dump" : Bytes) then some fun o b => { o with dump := b }
  else if name == ("S" : Bytes) then some fun o b => { o with listing := b }
  else if name == ("run" : Bytes) then some fun o b => { o with run := b }
  else none

def setVerbosity (o : Options) (value : Bytes) : Except ValueProblem Options :=
  match Numeral.parse value with
  | .ok n => .ok { o with verbosity := n }
  | .error .malformed => .error .malformed
  | .error .outOfRange => .error .outOfRange

/-- The options with a value. -/
def valued? (name : Bytes) : Option (Options → Bytes → Except ValueProblem Options) :=
  if name == ("i" : Bytes) then some fun o s => .ok { o with input := s }
  else if name == ("o" : Bytes) then some fun o s => .ok { o with outputDir := s }
  else if name == ("config" : Bytes) then some fun o s => .ok { o with settingsPath := s }
  else if name == ("v" : Bytes) then some setVerbosity
  else none

/-- The name of an option and the value behind its equals sign. -/
def splitValue (s : Bytes) : Bytes × Option Bytes :=
  let name := s.takeWhile (· != 0x3d)
  if name.length < s.length then (name, some (s.drop (name.length + 1))) else (s, none)

/-- An option without its dashes. Two dashes alone are none, nor is anything that does not start with
one and goes on. -/
def undash? : Bytes → Option Bytes
  | 0x2d :: 0x2d :: b :: rest => some (b :: rest)
  | 0x2d :: 0x2d :: [] => none
  | 0x2d :: b :: rest => some (b :: rest)
  | _ => none

def isName : Bytes → Bool
  | [] => false
  | b :: _ => b != 0x2d && b != 0x3d

/-- Reads options up to the first argument that is none. Behind two dashes there are none. -/
def readFrom (o : Options) : List Bytes → Except OptionError (Options × List Bytes)
  | [] => .ok (o, [])
  | argument :: rest =>
    match undash? argument with
    | none => .ok (o, if argument == ("--" : Bytes) then rest else argument :: rest)
    | some body =>
      if !isName body then .error (.badSyntax argument)
      else
        let (name, value?) := splitValue body
        match switch? name, valued? name with
        | some set, _ =>
          match value? with
          | none => readFrom (set o true) rest
          | some value =>
            match boolean? value with
            | some b => readFrom (set o b) rest
            | none => .error (.badSwitch value name)
        | none, some set =>
          match value?, rest with
          | none, [] => .error (.needsArgument name)
          | some value, rest =>
            match set o value with
            | .ok o => readFrom o rest
            | .error problem => .error (.badValue value name problem)
          | none, value :: rest =>
            match set o value with
            | .ok o => readFrom o rest
            | .error problem => .error (.badValue value name problem)
        | none, none =>
          if name == ("help" : Bytes) || name == ("h" : Bytes) then .error .help
          else .error (.undefined name)

/-- The options in a command line. The source file may also be the first argument behind them. -/
def parse (arguments : List Bytes) : Except OptionError Options :=
  match readFrom {} arguments with
  | .error e => .error e
  | .ok (o, rest) =>
    let input := if o.input.isEmpty then rest.headD [] else o.input
    if input.isEmpty then .error .noSource else .ok { o with input }

end Options

end ClassForge
