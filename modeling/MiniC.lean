import MiniC.Text.Report
import MiniC.Text.Utf8
import MiniC.Operator
import MiniC.Value
import MiniC.Control
import MiniC.Token.Lexer
import MiniC.Memory
import MiniC.Frames
import MiniC.Node.Parser
import MiniC.Code.Constant
import MiniC.Program.Builtins
import MiniC.Lowering.Context
import MiniC.Lowering
import MiniC.Program.Build
import MiniC.Machine.Run
import MiniC.Session
import MiniC.CommandLine
import MiniC.Main
import MiniC.Proofs.Regular
import MiniC.Proofs.Growth
import MiniC.Proofs.Ownership
import MiniC.Proofs.Calls
import MiniC.Proofs.Storage
import MiniC.Proofs.Allocation
import MiniC.Proofs.Faithful
import MiniC.Proofs.LoweredExpr
import MiniC.Proofs.TypeSoundness
import MiniC.Proofs.Plain
import MiniC.Proofs.ConstantFolding
import MiniC.Proofs.Likeness
import MiniC.Proofs.Fuel
import MiniC.Proofs.Truncation
import MiniC.Proofs.FrameEvents
import MiniC.Proofs.Interruption
import MiniC.Proofs.Rendering
import MiniC.Proofs.Reading
import MiniC.Proofs.Spelling
import MiniC.Proofs.Lookahead
import MiniC.Proofs.Acceptance
import MiniC.Proofs.Parsing
import MiniC.Proofs.Isolation
import MiniC.Proofs.Shapes
import MiniC.Proofs.ByteMap
import MiniC.Proofs.FaultPlaces
import MiniC.Proofs.Cells
import MiniC.Proofs.LexicalScoping
import MiniC.Proofs.PointerArithmetic
import MiniC.Proofs.CallEntry
import MiniC.Proofs.Jumps
import MiniC.Proofs.ControlFlow
import MiniC.Proofs.Sizes
import MiniC.Proofs.Sizeof
import MiniC.Proofs.StructCopy
import MiniC.Proofs.Initializers
import MiniC.Proofs.AddressRange
import MiniC.Proofs.ForLoops
import MiniC.Proofs.Sugar
import MiniC.Proofs.EarliestError
import MiniC.Proofs.Tokenization
import MiniC.Proofs.Coverage
import MiniC.Proofs.Caret
import MiniC.Proofs.Stepping
import MiniC.Proofs.Progress
import MiniC.Proofs.StringLiterals
import MiniC.Proofs.SymbolTables
import MiniC.Proofs.Termination
