import ClassForge.Bytes

/-! The lexemes of the source language. -/

namespace ClassForge

inductive Keyword where
  | program | declare | beginBody | endBody | integerType | stringType | set | print | read
  | ifTest | thenPart | elsePart | endIf | whileTest | doPart | endWhile | gt | lt | eq | neq
deriving DecidableEq, Repr

inductive Symbol where
  | leftParen | rightParen | plus | minus | times | slash | greater | less | equal | unequal
  | assign
deriving DecidableEq, Repr

inductive TokenKind where
  | keyword (k : Keyword)
  | symbol (s : Symbol)
  | number
  | text
  | identifier
deriving DecidableEq, Repr

/-- A lexeme and its place: a line, counted from 1, and the bytes of that line from `start` up to
`stop`. -/
structure Token where
  kind : TokenKind
  content : Bytes
  line : Nat
  start : Nat
  stop : Nat
deriving DecidableEq, Repr

namespace Keyword

def all : List Keyword :=
  [program, declare, beginBody, endBody, integerType, stringType, set, print, read, ifTest,
    thenPart, elsePart, endIf, whileTest, doPart, endWhile, gt, lt, eq, neq]

def spelling : Keyword → Bytes
  | program => "PROGRAM"
  | declare => "DECLARE"
  | beginBody => "BEGIN"
  | endBody => "END"
  | integerType => "INTEGER"
  | stringType => "STRING"
  | set => "SET"
  | print => "PRINT"
  | read => "READ"
  | ifTest => "IF"
  | thenPart => "THEN"
  | elsePart => "ELSE"
  | endIf => "ENDIF"
  | whileTest => "WHILE"
  | doPart => "DO"
  | endWhile => "ENDWHILE"
  | gt => "GT"
  | lt => "LT"
  | eq => "EQ"
  | neq => "NEQ"

def ofWord? (word : Bytes) : Option Keyword :=
  all.find? fun k => k.spelling == word

end Keyword

namespace Symbol

def spelling : Symbol → Bytes
  | leftParen => "("
  | rightParen => ")"
  | plus => "+"
  | minus => "-"
  | times => "*"
  | slash => "/"
  | greater => ">"
  | less => "<"
  | equal => "="
  | unequal => "<>"
  | assign => ":="

/-- The symbol of one byte, unless that byte may start a longer one. -/
def ofByte? (b : UInt8) : Option Symbol :=
  match b.toNat with
  | 0x28 => some leftParen
  | 0x29 => some rightParen
  | 0x2b => some plus
  | 0x2d => some minus
  | 0x2a => some times
  | 0x2f => some slash
  | 0x3e => some greater
  | 0x3d => some equal
  | _ => none

end Symbol

end ClassForge
