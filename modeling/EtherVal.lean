import EtherVal.Lib.Preorder
import EtherVal.TacParser.Parser
import EtherVal.TacParser.TransformFunction
import EtherVal.Vm.Arithmetic
import EtherVal.Vm.PhiStart
import EtherVal.Vm.Invariants
import EtherVal.Vm.Effect
import EtherVal.Vm.StepEffect
import EtherVal.Vm.Run
import EtherVal.TacParser.Layout
import EtherVal.TacParser.Walk
import EtherVal.TacParser.Resolve
import EtherVal.Vm.Stamps
import EtherVal.TacParser.Parsed
import EtherVal.TacParser.JumpResolution
import EtherVal.Vm.VarJump
import EtherVal.Vm.NextPc
import EtherVal.TacParser.Fallthrough
import EtherVal.Vm.Fallthrough
import EtherVal.Vm.EvmMemory
import EtherVal.Vm.MemoryExec
import EtherVal.Vm.MemoryRefinement
import EtherVal.Vm.MemoryReached
import EtherVal.Lib.BigEndian
import EtherVal.Vm.Blockhash
import EtherVal.Vm.OutOfGas
import EtherVal.Vm.Deviation
import EtherVal.Vm.Evm
import EtherVal.Vm.Keeps
import EtherVal.Vm.Executes
import EtherVal.Vm.Stack
import EtherVal.Vm.GlobalErrors
import EtherVal.Vm.RevertData
import EtherVal.Lib.Interleave
import EtherVal.Vm.OwnEvents
import EtherVal.Vm.Attempts
import EtherVal.Vm.DeviationRun
import EtherVal.Vm.Unreported
import EtherVal.Research.Substate
import EtherVal.Research.TaskConfig
import EtherVal.Lib.Transition
import EtherVal.Research.TaskPool
import EtherVal.Research.TaskPoolRun
import EtherVal.Research.TaskPoolLiveness
import EtherVal.Research.TaskPoolStall
import EtherVal.Vm.CallGas
import EtherVal.Vm.MemoryLimit
import EtherVal.Vm.Replay
import EtherVal.Vm.CreationGas
import EtherVal.TacParser.Operands
import EtherVal.Lib.Answers
import EtherVal.Research.SubstateTrace
import EtherVal.Lib.ZeroPad
import EtherVal.Vm.SubstrateCallData
import EtherVal.State.Recording
import EtherVal.State.View
import EtherVal.State.Loading
import EtherVal.Lib.Layer
import EtherVal.State.Alloc
import EtherVal.Validate.SideEffects
import EtherVal.Validate.Verdict
import EtherVal.Vm.ProgramCache
import EtherVal.TacParser.LexerCover
import EtherVal.TacParser.Termination
import EtherVal.TacParser.Registers
import EtherVal.Lib.Numbering
import EtherVal.TacParser.Numbering
import EtherVal.Lib.Displaced
import EtherVal.TacParser.Reorder
import EtherVal.TacParser.Notes
import EtherVal.TacParser.ReorderFlags
import EtherVal.Core.Message
import EtherVal.Core.UpgradeMessage
import EtherVal.Vm.OnTop
import EtherVal.Vm.Boundaries
import EtherVal.TacParser.Arguments
import EtherVal.Vm.Destinations
import EtherVal.Vm.Constants
import EtherVal.Vm.Located
import EtherVal.Vm.PrivateCalls
import EtherVal.Vm.Arity
import EtherVal.Research.BlockSegment
import EtherVal.Lib.Heap
import EtherVal.Research.ResultEquality
import EtherVal.Research.TraceHeap
import EtherVal.Research.TraceCopy
import EtherVal.Research.TraceStore
import EtherVal.Rr03.Substate
import EtherVal.Rr03.Rlp
import EtherVal.Lib.Rlp
import EtherVal.Rr03.Formats
import EtherVal.Rr03.Database
import EtherVal.Rr03.Records
import EtherVal.Vm.SubstrateInput
import EtherVal.Vm.SubstrateLoops
import EtherVal.Vm.SubstrateOperators
import EtherVal.Vm.SubstrateIntrinsics
import EtherVal.Vm.SubstrateMemory
import EtherVal.Vm.SubstrateCall
import EtherVal.Vm.SubstrateStorage
import EtherVal.Vm.SubstrateTuple
import EtherVal.Vm.SubstrateLiterals
import EtherVal.TacParser.BlockTables
import EtherVal.State.Revert
