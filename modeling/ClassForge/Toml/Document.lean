import ClassForge.Toml.Parser

/-! The tables of a TOML document. A table is implicit as long as only keys inside it have been
named, and may then be given once; no other key may be given twice. Tables have numbers, because one
can stand in two places: in the document, and in the inline table that it is written in. -/

namespace ClassForge.Toml

inductive Node where
  | value (v : Literal)
  | table (number : Nat)
  /-- An array of tables, of which the last one is open. -/
  | tables (last : Nat)
deriving Repr

/-- The table that is open at a node. -/
def Node.table? : Node → Option Nat
  | value _ => none
  | table number => some number
  | tables last => some last

abbrev Entries := List (Bytes × Node)

def Entries.set (k : Bytes) (node : Node) : Entries → Entries
  | [] => [(k, node)]
  | (k', old) :: rest => if k' == k then (k, node) :: rest else (k', old) :: Entries.set k node rest

/-- A document as far as it has been read. -/
structure Draft where
  /-- The tables by their numbers. The first one holds all others that are in the document. -/
  tables : Array Entries := #[[]]
  /-- The tables that may still be given. -/
  implicits : List Key := []
  /-- The keys that stand for arrays. -/
  arrays : List Key := []
  /-- The keys and tables in the order of the document, the last one first. -/
  given : List Key := []

/-- The number of the outermost table. -/
def Draft.top : Nat := 0

/-- What a table has at a name. -/
def Draft.lookup? (d : Draft) (number : Nat) (k : Bytes) : Option Node := do
  let entries ← d.tables[number]?
  entries.lookup k

/-- The number of the table at a key, which starts in the table with the given number. -/
def Draft.follow? (d : Draft) (number : Nat) : Key → Option Nat
  | [] => some number
  | k :: rest => do
    let node ← d.lookup? number k
    d.follow? (← node.table?) rest

/-- A step in the making of a document, which fails if the document is not valid. -/
abbrev Drafting := StateT Draft Option

namespace Drafting

/-- An empty table, which is not yet anywhere in the document. -/
def newTable : Drafting Nat :=
  modifyGet fun d => (d.tables.size, { d with tables := d.tables.push [] })

/-- Puts something into a table, in place of what is there. -/
def put (number : Nat) (k : Bytes) (node : Node) : Drafting Unit :=
  modify fun d => { d with tables := d.tables.modify number (·.set k node) }

/-- Puts something at a key in a table, in place of what is there. The tables on the way are made if
they are missing. -/
def place (node : Node) (number : Nat) : Key → Drafting Unit
  | [] => failure
  | [k] => put number k node
  | k :: rest => do
    match (← get).lookup? number k with
    | none =>
      let inner ← newTable
      put number k (.table inner)
      place node inner rest
    | some (.table inner) => place node inner rest
    | some _ => failure

def addImplicit (path : Key) : Drafting Unit :=
  modify fun d => { d with implicits := path :: d.implicits }

def removeImplicit (path : Key) : Drafting Unit :=
  modify fun d => { d with implicits := d.implicits.filter (· != path) }

/-- Notes whether the value of an entry is an array. An entry without a name counts for the table that
it is in, if there is one around it. -/
def markArray (context : Key) (k : Bytes) (isArray : Bool) : Drafting Unit :=
  modify fun d =>
    let path := if k.isEmpty && !context.isEmpty then context else context ++ [k]
    let others := d.arrays.filter (· != path)
    { d with arrays := if isArray then path :: others else others }

/-- Notes that a key stands for a table. -/
def markTable (path : Key) : Drafting Unit :=
  modify fun d => { d with arrays := d.arrays.filter (· != path) }

def give (path : Key) : Drafting Unit :=
  modify fun d => { d with given := path :: d.given }

/-- Puts something into the table at a key, where nothing has been given. An implicit table is given
by that, and stays as it is unless it stands for an array. -/
def assign (context : Key) (k : Bytes) (node : Node) : Drafting Unit := do
  let d ← get
  let number ← d.follow? Draft.top context
  if (d.lookup? number k).isNone then put number k node
  else
    let path := context ++ [k]
    guard (d.implicits.contains path)
    removeImplicit path
    if d.arrays.contains path then put number k node

/-- Makes the tables on the way to a key, as far as they are missing, and gives the last of them. The
key starts in the table with the given number; the parts of its way to there are in `outer`, the last
one first. -/
def openParents (outer : List Bytes) (number : Nat) : Key → Drafting Nat
  | [] => return number
  | k :: rest => do
    match (← get).lookup? number k with
    | none =>
      let inner ← newTable
      addImplicit (k :: outer).reverse
      put number k (.table inner)
      openParents (k :: outer) inner rest
    | some node => openParents (k :: outer) (← node.table?) rest

/-- Opens a table, or another table in an array. -/
def openTable (path : Key) (inArray : Bool) : Drafting Unit := do
  let context := path.dropLast
  let k ← path.getLast?
  let number ← openParents [] Draft.top context
  let inner ← newTable
  if inArray then
    match (← get).lookup? number k with
    | none | some (.tables _) => put number k (.tables inner)
    | some _ => failure
  else assign context k (.table inner)

/-- Opens the tables that the parts of a key lead through. -/
def openDotted (context : Key) : Key → Drafting Key
  | [] => return context
  | k :: rest => do
    let path := context ++ [k]
    addImplicit path
    openTable path false
    openDotted path rest

def isArray : Literal → Bool
  | .array _ => true
  | _ => false

mutual

/-- What a value stands for. The tables inside it become part of the document at once. -/
def make (context : Key) (k : Bytes) (inArray : Bool) : Literal → Drafting Node
  | .array items => do
    markArray context k true
    makeAll context k items
    return .value (.array items)
  | .table entries => do
    addImplicit (context ++ [k])
    openTable (context ++ [k]) inArray
    let own ← newTable
    enterAll (context ++ [k]) own entries
    return .table own
  | v => return .value v

def makeAll (context : Key) (k : Bytes) : List Literal → Drafting Unit
  | [] => pure ()
  | v :: rest => do
    discard (make context k true v)
    makeAll context k rest

/-- Sets entries in the table at a key, and in the table with the number `own`. -/
def enterAll (context : Key) (own : Nat) : List (Key × Literal) → Drafting Unit
  | [] => pure ()
  | (key, v) :: rest => do
    let inner ← openDotted context key.dropLast
    let k ← key.getLast?
    give (inner ++ [k])
    let node ← make inner k false v
    assign inner k node
    markArray inner k (isArray v)
    place node own key
    enterAll context own rest

end

/-- Reads the statements of a document, with the table that is open. -/
def statements (context : Key) : List Statement → Drafting Unit
  | [] => pure ()
  | .entry key v :: rest => do
    enterAll context (← newTable) [(key, v)]
    statements context rest
  | .table key :: rest => do
    openTable key false
    markTable key
    give key
    statements key rest
  | .tableArray key :: rest => do
    openTable key true
    markTable key
    give key
    statements key rest

end Drafting

structure Document where
  /-- The tables by their numbers. -/
  tables : Array Entries
  /-- The keys and tables that are given, in order. -/
  keys : List Key

namespace Document

def entries (document : Document) (number : Nat) : Entries :=
  (document.tables[number]?).getD []

/-- The entries outside all tables, and the tables themselves. -/
def root (document : Document) : Entries :=
  document.entries Draft.top

def parse (text : Bytes) : Option Document := do
  let all ← Toml.parse text
  let (_, draft) ← Drafting.statements [] all {}
  return ⟨draft.tables, draft.given.reverse⟩

end Document

end ClassForge.Toml
