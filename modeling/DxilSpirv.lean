import DxilSpirv.Bitcode.Constants
import DxilSpirv.Bitcode.Context
import DxilSpirv.Bitcode.Functions
import DxilSpirv.Bitcode.Instructions
import DxilSpirv.Bitcode.Module
import DxilSpirv.Bitcode.Operands
import DxilSpirv.Bitcode.ParserSafety
import DxilSpirv.Bitcode.RecordSafety
import DxilSpirv.Bitcode.References
import DxilSpirv.Bitcode.ShuffleMask
import DxilSpirv.Bitcode.Types
import DxilSpirv.Bitstream.Codes
import DxilSpirv.Bitstream.Decoder
import DxilSpirv.Bitstream.Fields
import DxilSpirv.Bitstream.Modules
import DxilSpirv.Bitstream.Reader
import DxilSpirv.Bitstream.Records
import DxilSpirv.Bitstream.RoundTrip
import DxilSpirv.Bitstream.Streams
import DxilSpirv.Bitstream.Total
import DxilSpirv.Bitstream.Windows
import DxilSpirv.Bitstream.Writer
import DxilSpirv.Buffer.ByteAddress
import DxilSpirv.Buffer.Index
import DxilSpirv.Buffer.Lowering
import DxilSpirv.Buffer.OffsetView
import DxilSpirv.Buffer.PhysicalPointer
import DxilSpirv.Buffer.RawAccessChain
import DxilSpirv.Buffer.RootConstants
import DxilSpirv.Buffer.Split
import DxilSpirv.Buffer.StructuredIndex
import DxilSpirv.Cfg.Analysis
import DxilSpirv.Cfg.BackEdges
import DxilSpirv.Cfg.Backward
import DxilSpirv.Cfg.Completion
import DxilSpirv.Cfg.Dominance
import DxilSpirv.Cfg.Escape
import DxilSpirv.Cfg.Frames
import DxilSpirv.Cfg.Frontiers
import DxilSpirv.Cfg.Ir
import DxilSpirv.Cfg.KnownDominators
import DxilSpirv.Cfg.LoopExits
import DxilSpirv.Cfg.Node
import DxilSpirv.Cfg.Reachability
import DxilSpirv.Cfg.Retarget
import DxilSpirv.Cfg.Separation
import DxilSpirv.Cfg.SplitOff
import DxilSpirv.Cfg.SwitchOrder
import DxilSpirv.Cfg.Traversal
import DxilSpirv.Container.MemoryStream
import DxilSpirv.Container.Parser
import DxilSpirv.Container.Safe
import DxilSpirv.Container.Streams
import DxilSpirv.Convert.AccessMask
import DxilSpirv.Convert.BitScan
import DxilSpirv.Convert.Composites
import DxilSpirv.Convert.ControlFlow
import DxilSpirv.Convert.DeadCode
import DxilSpirv.Convert.Expressions
import DxilSpirv.Convert.IntegerBinary
import DxilSpirv.Convert.IntegerCasts
import DxilSpirv.Convert.IntegerCorrect
import DxilSpirv.Convert.IntegerDivision
import DxilSpirv.Convert.IntegerExact
import DxilSpirv.Convert.IntegerLowering
import DxilSpirv.Convert.IntegerSemantics
import DxilSpirv.Convert.Peephole
import DxilSpirv.Convert.Precise
import DxilSpirv.Convert.SameFlow
import DxilSpirv.Convert.Values
import DxilSpirv.Convert.VisitOrder
import DxilSpirv.Emission.Branches
import DxilSpirv.Emission.Emit
import DxilSpirv.Emission.Function
import DxilSpirv.Emission.Growth
import DxilSpirv.Emission.Linked
import DxilSpirv.Emission.Meaning
import DxilSpirv.Emission.Nodes
import DxilSpirv.Emission.Operations
import DxilSpirv.Emission.Pseudo
import DxilSpirv.Emission.Traversal
import DxilSpirv.Graph.BitRows
import DxilSpirv.Graph.Closure
import DxilSpirv.Graph.Delaying
import DxilSpirv.Graph.Dfs
import DxilSpirv.Graph.Frontier
import DxilSpirv.Graph.Height
import DxilSpirv.Graph.Orders
import DxilSpirv.Graph.Parented
import DxilSpirv.Graph.Tree
import DxilSpirv.Graph.Walk
import DxilSpirv.Ir.ArgumentList
import DxilSpirv.Ir.ArgumentRefinement
import DxilSpirv.Ir.WordBlock
import DxilSpirv.Memory.AllocatorSafety
import DxilSpirv.Memory.ChainAllocator
import DxilSpirv.Memory.Regions
import DxilSpirv.Memory.Reuse
import DxilSpirv.Nvapi.Blocks
import DxilSpirv.Nvapi.Opcodes
import DxilSpirv.Nvapi.Operations
import DxilSpirv.Nvapi.Outputs
import DxilSpirv.Nvapi.Served
import DxilSpirv.Nvapi.State
import DxilSpirv.Nvapi.Stores
import DxilSpirv.Program.Checked
import DxilSpirv.Program.Definitions
import DxilSpirv.Program.Simulation
import DxilSpirv.Program.Sorting
import DxilSpirv.Program.Weakest
import DxilSpirv.Spirv.AccessChain
import DxilSpirv.Spirv.AtomicCounter
import DxilSpirv.Spirv.BitSearch
import DxilSpirv.Spirv.BlockOrder
import DxilSpirv.Spirv.Builder
import DxilSpirv.Spirv.Composites
import DxilSpirv.Spirv.Declarations
import DxilSpirv.Spirv.Dump
import DxilSpirv.Spirv.IndexSpace
import DxilSpirv.Spirv.Instruction
import DxilSpirv.Spirv.Interning
import DxilSpirv.Spirv.Lockstep
import DxilSpirv.Spirv.LowBits
import DxilSpirv.Spirv.MakeConstants
import DxilSpirv.Spirv.MakeTypes
import DxilSpirv.Spirv.Operands
import DxilSpirv.Spirv.Scalar
import DxilSpirv.Spirv.StraightLine
import DxilSpirv.Spirv.Subgroup
import DxilSpirv.Spirv.Words
import DxilSpirv.Ssa.BreakingPhi
import DxilSpirv.Ssa.BreakingReturn
import DxilSpirv.Ssa.Copies
import DxilSpirv.Ssa.Duplicate
import DxilSpirv.Ssa.DuplicateCompletes
import DxilSpirv.Ssa.DuplicateImpossible
import DxilSpirv.Ssa.Duplicated
import DxilSpirv.Ssa.Execution
import DxilSpirv.Ssa.Flatten
import DxilSpirv.Ssa.FlattenCompletes
import DxilSpirv.Ssa.Form
import DxilSpirv.Ssa.Incoming
import DxilSpirv.Ssa.Machine
import DxilSpirv.Ssa.Module
import DxilSpirv.Ssa.ReturnRuns
import DxilSpirv.Ssa.Settled
import DxilSpirv.Ssa.SplitReturns
import DxilSpirv.Ssa.Surrounded
import DxilSpirv.Ssa.TrueBranches
import DxilSpirv.Wave.Helpers
import DxilSpirv.Wave.ImageAtomic
import DxilSpirv.Wave.QuadDispatch
import DxilSpirv.Wave.ReadLane
import DxilSpirv.Wave.Uniform
import DxilSpirv.Words.Records
import DxilSpirv.Words.Strings
import DxilSpirv.Workgraph.Dispatcher
import DxilSpirv.Workgraph.NodeAtomics
import DxilSpirv.Workgraph.NodeExclusive
import DxilSpirv.Workgraph.NodeInvariants
import DxilSpirv.Workgraph.NodeRecords
