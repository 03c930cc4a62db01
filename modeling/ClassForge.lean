import ClassForge.Assembly.Code
import ClassForge.Assembly.Error
import ClassForge.Assembly.Instruction
import ClassForge.Assembly.Layout
import ClassForge.Assembly.Method
import ClassForge.Assembly.StackHeight
import ClassForge.Assembly.Workbench
import ClassForge.Bytes
import ClassForge.ClassFile.Reader
import ClassForge.ClassFile.Writer
import ClassForge.Command.Basic
import ClassForge.Command.Options
import ClassForge.Command.Standard
import ClassForge.Compile.Emission
import ClassForge.Compile.Emitter
import ClassForge.Compile.Error
import ClassForge.Compile.SymbolTable
import ClassForge.Compile.Typing
import ClassForge.ConstantPool
import ClassForge.Descriptor
import ClassForge.Dump.Basic
import ClassForge.Dump.Cbor
import ClassForge.Dump.CborCodec
import ClassForge.Files.ClassStore
import ClassForge.Files.Error
import ClassForge.Files.Log
import ClassForge.Files.Path
import ClassForge.Files.Tree
import ClassForge.Machine.Basic
import ClassForge.Machine.Input
import ClassForge.Machine.Run
import ClassForge.Machine.Step
import ClassForge.Main
import ClassForge.Opcode
import ClassForge.Proofs.AssembledBody
import ClassForge.Proofs.AssemblyLimits
import ClassForge.Proofs.AssemblyRoundTrip
import ClassForge.Proofs.BodyLayout
import ClassForge.Proofs.CborRoundTrip
import ClassForge.Proofs.ClassRoundTrip
import ClassForge.Proofs.CodeGrowth
import ClassForge.Proofs.CommandFiles
import ClassForge.Proofs.CompilationDump
import ClassForge.Proofs.CompilerCorrectness
import ClassForge.Proofs.CrashFreedom
import ClassForge.Proofs.Decoding
import ClassForge.Proofs.DescriptorGrammar
import ClassForge.Proofs.Disassembly
import ClassForge.Proofs.DumpRoundTrip
import ClassForge.Proofs.EmissionFaults
import ClassForge.Proofs.EmittedCode
import ClassForge.Proofs.EmittedProgram
import ClassForge.Proofs.EmittedRoles
import ClassForge.Proofs.EmitterLife
import ClassForge.Proofs.EntrySteps
import ClassForge.Proofs.Evaluation
import ClassForge.Proofs.ExpressionParsing
import ClassForge.Proofs.ForwardExecution
import ClassForge.Proofs.Grammar
import ClassForge.Proofs.InputReads
import ClassForge.Proofs.LabelBookkeeping
import ClassForge.Proofs.Lexemes
import ClassForge.Proofs.ListingText
import ClassForge.Proofs.Meaning
import ClassForge.Proofs.OperatorTrees
import ClassForge.Proofs.PackagedMain
import ClassForge.Proofs.PoolFidelity
import ClassForge.Proofs.PoolInvariant
import ClassForge.Proofs.PoolRequests
import ClassForge.Proofs.PoolRoundTrip
import ClassForge.Proofs.PrecedenceClimbing
import ClassForge.Proofs.PrintedExpressions
import ClassForge.Proofs.PrintedInput
import ClassForge.Proofs.ProgramClass
import ClassForge.Proofs.ProgramParsing
import ClassForge.Proofs.RawActions
import ClassForge.Proofs.RawMachine
import ClassForge.Proofs.RecursiveDescent
import ClassForge.Proofs.RepeatedAssembly
import ClassForge.Proofs.RuntimeMembers
import ClassForge.Proofs.RuntimeSteps
import ClassForge.Proofs.SafeActions
import ClassForge.Proofs.SafeExecution
import ClassForge.Proofs.SelfDelimiting
import ClassForge.Proofs.Simulation
import ClassForge.Proofs.SlotAllocation
import ClassForge.Proofs.SlotDiscipline
import ClassForge.Proofs.StackAnalysis
import ClassForge.Proofs.StackBalance
import ClassForge.Proofs.StackExactness
import ClassForge.Proofs.StatementParsing
import ClassForge.Proofs.StructuralValidity
import ClassForge.Proofs.TextPieces
import ClassForge.Proofs.TextRepair
import ClassForge.Proofs.TextRoundTrip
import ClassForge.Proofs.TokenSpans
import ClassForge.Proofs.TokenWriting
import ClassForge.Proofs.TypeChecking
import ClassForge.Proofs.TypingRules
import ClassForge.Proofs.WriterRun
import ClassForge.Proofs.WrittenClass
import ClassForge.Sequencing
import ClassForge.Settings.Basic
import ClassForge.Settings.TomlReader
import ClassForge.Source.Lexer
import ClassForge.Source.Parser
import ClassForge.Source.Precedence
import ClassForge.Source.Program
import ClassForge.Source.Token
import ClassForge.Text.Decimal
import ClassForge.Text.ModifiedUtf8
import ClassForge.Text.Numeral
import ClassForge.Text.Printable
import ClassForge.Text.Quoted
import ClassForge.Text.Space
import ClassForge.Text.Utf8
import ClassForge.Toml.Document
import ClassForge.Toml.Number
import ClassForge.Toml.Parser
import ClassForge.Toml.Reading
import ClassForge.Toml.Syntax
import ClassForge.Toml.Text
