import ClassForge.Source.Token
import ClassForge.Text.Decimal
import ClassForge.Text.Space

/-! From source text to tokens. Lines end with a newline, no lexeme runs over a line, and `#`
starts a comment up to the end of its line. -/

namespace ClassForge

inductive LexProblem where
  | unexpectedCharacter
  | expectedAssign
  | unterminatedText
  | badIdentifier
deriving DecidableEq, Repr

def LexProblem.message : LexProblem → Bytes
  | unexpectedCharacter => "unexpected character"
  | expectedAssign => "expected :="
  | unterminatedText => "incorrect string format"
  | badIdentifier => "incorrect identifier format"

inductive LexError where
  | lexeme (near : Bytes) (line : Nat) (problem : LexProblem)
  /-- The source cannot be read to its end. -/
  | broken
deriving DecidableEq, Repr

def LexError.message : LexError → Bytes
  | lexeme near line problem =>
    "Tokenizer: tokenizer error near " ++ near ++ " at line " ++ Decimal.ofNat line ++ ", msg: " ++
      problem.message
  | broken => "input broken"

namespace Lexer

/-- The kind of a word. -/
def wordKind (word : Bytes) : Except (Bytes × LexProblem) TokenKind :=
  match Keyword.ofWord? word with
  | some k => .ok (.keyword k)
  | none => if Bytes.isIdentifier word then .ok .identifier else .error (word, .badIdentifier)

/-- The kind and the length of the lexeme that a line starts with, at a byte that is neither white
space nor the start of a comment. -/
def lexeme (b : UInt8) (rest : Bytes) : Except (Bytes × LexProblem) (TokenKind × Nat) :=
  match Symbol.ofByte? b with
  | some s => .ok (.symbol s, 1)
  | none =>
    if b = 0x3c then
      if rest.head? = some 0x3e then .ok (.symbol .unequal, 2) else .ok (.symbol .less, 1)
    else if b = 0x3a then
      if rest.head? = some 0x3d then .ok (.symbol .assign, 2)
      else .error (b :: rest, .expectedAssign)
    else if b = 0x22 then
      match rest.idxOf? 0x22 with
      | some i => .ok (.text, i + 2)
      | none => .error (b :: rest, .unterminatedText)
    else if Bytes.isDigit b then .ok (.number, (rest.takeWhile Bytes.isDigit).length + 1)
    else
      let word := (b :: rest).takeWhile Bytes.isWord
      if word.isEmpty then .error (b :: rest, .unexpectedCharacter)
      else
        match wordKind word with
        | .ok kind => .ok (kind, word.length)
        | .error e => .error e

abbrev Lexing := EStateM LexError (Array Token)

/-- Adds the tokens of the rest of a line, which starts at `position`. The first `skip` bytes belong
to a token that has been added. -/
def scanLine (line position : Nat) : (skip : Nat) → Bytes → Lexing Unit
  | _, [] => pure ()
  | skip + 1, _ :: rest => scanLine line (position + 1) skip rest
  | 0, b :: rest =>
    if Space.isSpaceByte b then scanLine line (position + 1) 0 rest
    else if b = 0x23 then pure ()
    else
      match lexeme b rest with
      | .error (near, problem) => throw (.lexeme near line problem)
      | .ok (kind, length) => do
        modify (·.push ⟨kind, (b :: rest).take length, line, position, position + length⟩)
        scanLine line (position + 1) (length - 1) rest

def scanLines (line : Nat) : List Bytes → Lexing Unit
  | [] => pure ()
  | text :: rest => do
    scanLine line 0 0 text
    scanLines (line + 1) rest

/-- The complete lines of a text, each with its newline, and what follows the last newline. The
lines of `done` and the bytes of `current` are in reverse. -/
def splitFrom (done : List Bytes) (current : Bytes) : Bytes → List Bytes × Bytes
  | [] => (done.reverse, current.reverse)
  | b :: rest =>
    if b = 0x0a then splitFrom ((b :: current).reverse :: done) [] rest
    else splitFrom done (b :: current) rest

def splitLines (source : Bytes) : List Bytes × Bytes :=
  splitFrom [] [] source

/-- Adds the tokens of a source text. The tokens before an error stay. Of a broken source only the
complete lines are looked at. -/
def tokenize (source : Bytes) (isBroken : Bool) : Lexing Unit :=
  let (complete, last) := splitLines source
  if isBroken then do
    scanLines 1 complete
    throw .broken
  else scanLines 1 (complete ++ [last])

end Lexer

/-- The tokens of a source text. -/
def Token.scan (source : Bytes) : Except LexError (List Token) :=
  match Lexer.tokenize source false #[] with
  | .ok _ tokens => .ok tokens.toList
  | .error e _ => .error e

end ClassForge
