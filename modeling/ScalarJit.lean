import ScalarJit.Bytes
import ScalarJit.Codegen.Expr
import ScalarJit.Codegen.Fault
import ScalarJit.Codegen.Object
import ScalarJit.Codegen.Pool
import ScalarJit.Codegen.RegisterStack
import ScalarJit.Codegen.State
import ScalarJit.CommandLine.App
import ScalarJit.CommandLine.Files
import ScalarJit.CommandLine.Options
import ScalarJit.CommandLine.Usage
import ScalarJit.Diagnostic
import ScalarJit.Double.Basic
import ScalarJit.Double.Decimal
import ScalarJit.Double.Reader
import ScalarJit.Dump.Json
import ScalarJit.Dump.Tree
import ScalarJit.Evaluation
import ScalarJit.Execution
import ScalarJit.Grammar.Block
import ScalarJit.Grammar.Complaint
import ScalarJit.Grammar.Declaration
import ScalarJit.Grammar.Operand
import ScalarJit.Grammar.Operator
import ScalarJit.Grammar.State
import ScalarJit.Host.Console
import ScalarJit.Host.Function
import ScalarJit.Image.Load
import ScalarJit.Image.Section
import ScalarJit.Machine.Run
import ScalarJit.Machine.State
import ScalarJit.Machine.Step
import ScalarJit.Proofs.Codegen.Branch
import ScalarJit.Proofs.Codegen.Call
import ScalarJit.Proofs.Codegen.Discipline
import ScalarJit.Proofs.Codegen.Doubles
import ScalarJit.Proofs.Codegen.Exhaustion
import ScalarJit.Proofs.Codegen.Faults
import ScalarJit.Proofs.Codegen.Function
import ScalarJit.Proofs.Codegen.Generation
import ScalarJit.Proofs.Codegen.Item
import ScalarJit.Proofs.Codegen.Links
import ScalarJit.Proofs.Codegen.Listing
import ScalarJit.Proofs.Codegen.Literals
import ScalarJit.Proofs.Codegen.Lowering
import ScalarJit.Proofs.Codegen.Need
import ScalarJit.Proofs.Codegen.Program
import ScalarJit.Proofs.Codegen.Sections
import ScalarJit.Proofs.Codegen.Shape
import ScalarJit.Proofs.Codegen.Steps
import ScalarJit.Proofs.Grammar.Advance
import ScalarJit.Proofs.Grammar.Arena
import ScalarJit.Proofs.Grammar.CallOrder
import ScalarJit.Proofs.Grammar.Loops
import ScalarJit.Proofs.Grammar.Motion
import ScalarJit.Proofs.Grammar.Nesting
import ScalarJit.Proofs.Grammar.Progress
import ScalarJit.Proofs.Grammar.Reading
import ScalarJit.Proofs.Grammar.Steps
import ScalarJit.Proofs.Grammar.Thrift
import ScalarJit.Proofs.Grammar.WellFormed
import ScalarJit.Proofs.Image.Bounds
import ScalarJit.Proofs.Image.Contents
import ScalarJit.Proofs.Image.Links
import ScalarJit.Proofs.Image.Load
import ScalarJit.Proofs.Image.Memory
import ScalarJit.Proofs.Image.Startup
import ScalarJit.Proofs.Isolation.Ahead
import ScalarJit.Proofs.Isolation.Bodies
import ScalarJit.Proofs.Isolation.Braces
import ScalarJit.Proofs.Isolation.Calls
import ScalarJit.Proofs.Isolation.Closing
import ScalarJit.Proofs.Isolation.Coverage
import ScalarJit.Proofs.Isolation.Excerpt
import ScalarJit.Proofs.Isolation.Redeclared
import ScalarJit.Proofs.Language.Accepted
import ScalarJit.Proofs.Language.Chains
import ScalarJit.Proofs.Language.Complete
import ScalarJit.Proofs.Language.CompleteDeclarations
import ScalarJit.Proofs.Language.Derivation
import ScalarJit.Proofs.Language.Folding
import ScalarJit.Proofs.Language.Frame
import ScalarJit.Proofs.Language.Grouping
import ScalarJit.Proofs.Language.Layout
import ScalarJit.Proofs.Language.OneToOne
import ScalarJit.Proofs.Language.Quiet
import ScalarJit.Proofs.Language.Rules
import ScalarJit.Proofs.Language.Sound
import ScalarJit.Proofs.Language.SoundDeclarations
import ScalarJit.Proofs.Language.Stream
import ScalarJit.Proofs.Lockstep.Readers
import ScalarJit.Proofs.Lockstep.Steps
import ScalarJit.Proofs.Machine.Agreement
import ScalarJit.Proofs.Machine.Branches
import ScalarJit.Proofs.Machine.Calls
import ScalarJit.Proofs.Machine.Expressions
import ScalarJit.Proofs.Machine.Frames
import ScalarJit.Proofs.Machine.Functions
import ScalarJit.Proofs.Machine.Initialized
import ScalarJit.Proofs.Machine.Phrases
import ScalarJit.Proofs.Machine.Program
import ScalarJit.Proofs.Machine.Progress
import ScalarJit.Proofs.Machine.Reach
import ScalarJit.Proofs.Machine.Registers
import ScalarJit.Proofs.Machine.Simulation
import ScalarJit.Proofs.Machine.Stack
import ScalarJit.Proofs.Machine.StackDiscipline
import ScalarJit.Proofs.Machine.Traced
import ScalarJit.Proofs.Outcome
import ScalarJit.Proofs.Spacing.Alike
import ScalarJit.Proofs.Spacing.Sources
import ScalarJit.Proofs.Text.Splice
import ScalarJit.Proofs.Token.Caret
import ScalarJit.Proofs.Token.Lexing
import ScalarJit.Proofs.Token.Modes
import ScalarJit.Proofs.Tree.Accesses
import ScalarJit.Proofs.Tree.Levels
import ScalarJit.Proofs.Tree.Parts
import ScalarJit.Proofs.Tree.Scoping
import ScalarJit.Proofs.Tree.Traversal
import ScalarJit.Proofs.Tree.Typing
import ScalarJit.Proofs.Tree.WellFormed
import ScalarJit.Proofs.Ty.Alignment
import ScalarJit.Proofs.X86.Assembly
import ScalarJit.Proofs.X86.Containment
import ScalarJit.Proofs.X86.Decode
import ScalarJit.Text.Blank
import ScalarJit.Text.Hex
import ScalarJit.Text.Lines
import ScalarJit.Token.Basic
import ScalarJit.Token.Lexer
import ScalarJit.Token.Segment
import ScalarJit.Tree.Expr
import ScalarJit.Tree.Program
import ScalarJit.Tree.Scope
import ScalarJit.Tree.Typing
import ScalarJit.Ty.Basic
import ScalarJit.Ty.Tuple
import ScalarJit.Word
import ScalarJit.X86.Assembler
import ScalarJit.X86.Decode
import ScalarJit.X86.Instr
import ScalarJit.X86.Register
import ScalarJit.Main
