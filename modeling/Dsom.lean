import Dsom.Foundations.TwoChoice
import Dsom.Runtime.MethodTable
import Dsom.Runtime.ClassChain
import Dsom.Foundations.Ring
import Dsom.Osr.MapBuilder
import Dsom.Osr.Replayer
import Dsom.Syntax.Ast
import Dsom.Syntax.Parser
import Dsom.Syntax.RoundTrip
import Dsom.Compiler.Code
import Dsom.Compiler.Context
import Dsom.Compiler.Compile
import Dsom.Compiler.Scope
import Dsom.Compiler.Upvalues
import Dsom.Compiler.Trivial
import Dsom.Machine.State
import Dsom.Machine.Step
import Dsom.Machine.Trivial
import Dsom.Dfg.Blocks
import Dsom.Dfg.CapturePaths
import Dsom.Dfg.InlineTree
import Dsom.Dfg.Liveness
import Dsom.Dfg.LivenessPaths
import Dsom.Dfg.FunctionLiveness
import Dsom.Dfg.StackLayout
import Dsom.Dfg.StackLayoutSafe
import Dsom.Foundations.BitMask
import Dsom.Foundations.Bytes
import Dsom.Typemask.Automata
import Dsom.Dfg.PhantomCoverage
import Dsom.RegAlloc.Recovery
import Dsom.Foundations.Chain
import Dsom.Runtime.CallInlineCache
import Dsom.Runtime.MethodInsertion
import Dsom.Runtime.UpvalueList
import Dsom.Typemask.MinCost
import Dsom.Compiler.Frame
import Dsom.Machine.Loops
import Dsom.Dfg.Prediction
import Dsom.Dfg.PredictionFixpoint
import Dsom.Foundations.Agreement
import Dsom.Foundations.Orbit
import Dsom.Foundations.Signed
import Dsom.Runtime.ClassLoading
import Dsom.Runtime.FieldLayout
import Dsom.Runtime.IntegerOps
import Dsom.Runtime.IntegerRange
import Dsom.Syntax.SymbolLiteral
import Dsom.Foundations.TwoStacks
import Dsom.Graph.SharedBuffer
import Dsom.Operators.Agreement
import Dsom.Graph.TopologicalOrder
import Dsom.Runtime.SpdsAlloc
import Dsom.Dfg.Speculation
import Dsom.RegAlloc.RegisterBankLegal
import Dsom.Dfg.CfgCleanupCorrect
import Dsom.Jit.CodeLayoutCorrect
import Dsom.Foundations.BinarySearch
import Dsom.Runtime.BytecodeLookup
import Dsom.Dfg.BatchedInsertions
import Dsom.Dfg.EdgePacks
import Dsom.Dfg.RegisterUsage
import Dsom.Runtime.BoxedValue
import Dsom.Jit.RegMoveInst
import Dsom.Runtime.ArrayLiteralRuns
import Dsom.Jit.MemoryRuns
import Dsom.Dfg.OsrReconstruct
import Dsom.Ssa.LogicalVariables
import Dsom.Ssa.CapturedVariables
import Dsom.RegAlloc.DecisionRuns
