import ClassForge.ClassFile.Writer
import ClassForge.Compile.Emission

/-! The life of one output class: it is begun, its body is opened and filled, and it is closed. The
class is handed on only when it is closed and every part of that has succeeded. -/

namespace ClassForge

/-- What belongs to the compilation of one program. -/
structure Context where
  program : Bytes
  table : SymbolTable := {}
  /-- The slot of the input reader, once there is one. -/
  reader : Option Nat := none
  code : Code := {}

namespace Context

abbrev Step := EStateM EmissionError Context

def onCode {α : Type} (x : Emission.Emitting α) : Step α := fun ⟨program, table, reader, code⟩ =>
  match x code with
  | .ok a code => .ok a ⟨program, table, reader, code⟩
  | .error e code => .error e ⟨program, table, reader, code⟩

def declare (d : Declaration) : Step Unit := fun ctx =>
  match ctx.table.declare d.name d.type with
  | .ok _ table => .ok () { ctx with table }
  | .error e table => .error (.program e) { ctx with table }

/-- Forgets all variables. -/
def forgetAll : Step Unit :=
  modify fun ctx => { ctx with table := {} }

/-- Reserves a slot for the input reader. -/
def newReader : Step Nat := fun ctx =>
  let (slot, table) := ctx.table.reserve
  .ok slot { ctx with table, reader := some slot }

/-- Initialises the variables, and constructs the input reader if the body reads. -/
def initialise (body : List Stmt) : Step Unit := do
  let declared := (← get).table.declared.toList
  onCode (Emission.initialiseAll declared)
  if anyReads body then
    let slot ← newReader
    onCode (Emission.constructReader slot)

def emitAll (body : List Stmt) : Step Unit := do
  let ctx ← get
  let scope : Emission.Scope := ⟨ctx.table, ctx.reader⟩
  onCode (Emission.statements scope body)

def check (body : List Stmt) : Step Unit := fun ctx =>
  match checkAll ctx.table body with
  | .ok _ => .ok () ctx
  | .error e => .error (.program e) ctx

def declareAll (ds : List Declaration) : Step Unit := fun ctx =>
  match ctx.table.declareAll ds with
  | .ok _ table => .ok () { ctx with table }
  | .error e table => .error (.program e) { ctx with table }

end Context

/-- Stores a class under the name of its program, and tells where. -/
abbrev ArtifactSink (ε : Type) (m : Type → Type) := (name data : Bytes) → m (Except ε Bytes)

inductive CompileError (ε : Type) where
  | emission (cause : EmissionError)
  | classFile (cause : ClassError)
  | assembly (program : Bytes) (cause : AssemblyError)
  | write (program : Bytes) (cause : ε)
deriving DecidableEq, Repr

namespace CompileError

def message {ε : Type} (writeMessage : ε → Bytes) : CompileError ε → Bytes
  | emission cause => cause.message
  | classFile cause => cause.message
  | assembly program cause =>
    "assemble " ++ program ++ "." ++ ClassFile.mainName ++ ": " ++ cause.message
  | write program cause => "write " ++ program ++ ": " ++ writeMessage cause

end CompileError

/-- What closing an emitter gives. -/
structure Artifact where
  program : Bytes
  path : Bytes
  bytes : Bytes
  listing : List Bytes
deriving DecidableEq, Repr

inductive Emitter where
  | idle
  | opened (writer : ClassWriter) (context : Context)
  | body (writer : ClassWriter) (context : Context)
  | closed (writer : ClassWriter) (context : Context)

namespace Emitter

def phase : Emitter → Phase
  | idle => .idle
  | opened .. => .opened
  | body .. => .body
  | closed .. => .closed

def context? : Emitter → Option Context
  | idle => none
  | opened _ context | body _ context | closed _ context => some context

def setContext (context : Context) : Emitter → Emitter
  | idle => idle
  | opened writer _ => opened writer context
  | body writer _ => body writer context
  | closed writer _ => closed writer context

def invalid {ε : Type} (operation : Bytes) (emitter : Emitter) : CompileError ε :=
  .emission (.program (.invalidState operation emitter.phase))

/-- A class for the program, with its constructor. -/
def newClass (program : Bytes) : Except ClassError ClassWriter :=
  match ClassWriter.new program ClassFile.objectClass with
  | .error e => .error (.pool e)
  | .ok writer =>
    let addConstructor : ClassWriter.Writing Unit := do
      let body ← ClassWriter.constructorBody
      ClassWriter.addMethod ClassFile.accPublic ClassFile.constructorName
        ClassFile.noArgsDescriptor (some body)
    match addConstructor writer with
    | .ok _ writer => .ok writer
    | .error e _ => .error e

def start {ε : Type} (program : Bytes) : EStateM (CompileError ε) Emitter Unit := fun emitter =>
  match emitter with
  | idle =>
    match newClass program with
    | .ok writer => .ok () (opened writer { program })
    | .error e => .error (.classFile e) idle
  | _ => .error (invalid "begin" emitter) emitter

/-- Opens the body of the main method. -/
def openBody {ε : Type} : EStateM (CompileError ε) Emitter Unit := fun emitter =>
  match emitter with
  | opened writer context => .ok () (body writer { context with code := {} })
  | _ => .error (invalid "begin body" emitter) emitter

/-- Assembles the body behind its final return, and adds the main method to the class. The context
gets the code as it is then. -/
def finish {ε : Type} (writer : ClassWriter) (context : Context) :
    Except (CompileError ε) Bytes × ClassWriter × Context :=
  match Code.emit Opcode.returnVoid.byte context.code with
  | .error e code => (.error (.emission (.code e)), writer, { context with code })
  | .ok _ code =>
    match code.assemble context.table.maxLocals writer.pool with
    | .error e pool =>
      (.error (.assembly context.program e), { writer with pool }, { context with code })
    | .ok method pool =>
      let context := { context with code := code.sealed }
      let addMain : ClassWriter.Writing Bytes := do
        ClassWriter.addMethod (ClassFile.accPublic ||| ClassFile.accStatic) ClassFile.mainName
          ClassFile.mainDescriptor (some method)
        ClassWriter.bytes
      match addMain { writer with pool } with
      | .error e writer => (.error (.classFile e), writer, context)
      | .ok data writer => (.ok data, writer, context)

/-- Ends the body, and hands the class to the artifact writer. The emitter is closed afterwards,
also when that fails. -/
def close {ε : Type} {m : Type → Type} [Monad m] (store : ArtifactSink ε m) (emitter : Emitter) :
    m (Except (CompileError ε) Artifact × Emitter) := do
  match emitter with
  | body writer context =>
    match finish writer context with
    | (.error e, writer, context) => return (.error e, closed writer context)
    | (.ok data, writer, context) =>
      match ← store context.program data with
      | .error e => return (.error (.write context.program e), closed writer context)
      | .ok path =>
        return (.ok ⟨context.program, path, data, context.code.listing⟩, closed writer context)
  | _ => return (.error (invalid "close" emitter), emitter)

/-- A step on the context; none before there is one. -/
def onContext {ε α : Type} (x : Context.Step α) :
    EStateM (CompileError ε) Emitter (Option α) := fun emitter =>
  match emitter.context? with
  | none => .ok none emitter
  | some context =>
    match x context with
    | .ok a context => .ok (some a) (emitter.setContext context)
    | .error e context => .error (.emission e) (emitter.setContext context)

end Emitter

/-- A finished compilation. -/
structure Compilation where
  artifact : Artifact
  table : SymbolTable

/-- Everything up to the closing of the emitter. -/
def Program.emit {ε : Type} (p : Program) : EStateM (CompileError ε) Emitter Unit := do
  Emitter.start p.name
  discard <| Emitter.onContext do
    Context.forgetAll
    Context.declareAll p.declarations
    Context.check p.body
  Emitter.openBody
  discard <| Emitter.onContext do
    Context.initialise p.body
    Context.emitAll p.body

/-- Compiles a program and hands the class to the artifact writer. Nothing reaches the writer
unless every part of the compilation succeeds. -/
def Program.compile {ε : Type} {m : Type → Type} [Monad m] (store : ArtifactSink ε m)
    (p : Program) : m (Except (CompileError ε) Compilation) := do
  match p.emit .idle with
  | .error e _ => return .error e
  | .ok _ emitter =>
    match ← Emitter.close store emitter with
    | (.error e, _) => return .error e
    | (.ok artifact, emitter) =>
      return .ok ⟨artifact, (emitter.context?.map Context.table).getD {}⟩

end ClassForge
