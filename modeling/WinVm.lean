import WinVm.Compiler.Scopes
import WinVm.Compiler.ScopesRoundTrip
import WinVm.Interpreter.Ic
import WinVm.Interpreter.IcTransparency
import WinVm.Bytecode.Builder
import WinVm.Bytecode.BuilderRoundTrip
import WinVm.Compiler.Ir
import WinVm.Lib.Dfs
import WinVm.Compiler.Regalloc
import WinVm.Compiler.Linear
import WinVm.Compiler.Intervals
import WinVm.Compiler.Allocate
import WinVm.Compiler.OopMaps
import WinVm.Compiler.Interference
import WinVm.Lib.Tiling
import WinVm.Memory.Objects
import WinVm.Memory.Simulation
import WinVm.Codecache.CodeTable
import WinVm.Codecache.Coherence
import WinVm.Codecache.Deps
import WinVm.Codecache.Adapters
import WinVm.Codecache.Flush
import WinVm.Codecache.Dispatch
import WinVm.Codecache.Resolve
import WinVm.Process.Machine
import WinVm.Process.Activation
import WinVm.Process.Liveness
import WinVm.Process.Semantics
import WinVm.Lib.Reach
import WinVm.Process.Represents
import WinVm.Process.Calls
import WinVm.Process.Unwinding
import WinVm.Process.Discipline
import WinVm.Compiler.Feedback
import WinVm.Compiler.FeedbackTruth
import WinVm.Frontend.Ast
import WinVm.Frontend.Capture
import WinVm.Frontend.Codegen
import WinVm.Frontend.Scoping
import WinVm.Frontend.ScopingEmission
import WinVm.Frontend.ScopingWalk
import WinVm.Frontend.ScopingStorage
import WinVm.Frontend.ScopingTruth
import WinVm.Frontend.Accesses
import WinVm.Frontend.Balance
import WinVm.Frontend.Compiled
import WinVm.Embed.Entries
import WinVm.Embed.Recovery
import WinVm.Workers.Protocol
import WinVm.Workers.Safety
import WinVm.Lib.Graph
import WinVm.Memory.Copying
import WinVm.Memory.Relocation
import WinVm.Memory.Scanning
import WinVm.Memory.ScavengeGraph
import WinVm.Codecache.Allocator
import WinVm.Interpreter.MethodDict
import WinVm.Lib.Packing
import WinVm.Lib.Worklist
import WinVm.Memory.Compaction
import WinVm.Memory.FullGcCards
import WinVm.Memory.Handles
import WinVm.Memory.OffsetRuns
import WinVm.Memory.Symbols
import WinVm.Compiler.Decode
import WinVm.Compiler.DecodeBlocks
import WinVm.Codecache.Effects
import WinVm.Compiler.DecodeGraph
import WinVm.Compiler.Inline
import WinVm.Debugger.Breakpoints
import WinVm.Debugger.Dispatch
import WinVm.Debugger.Halting
import WinVm.Debugger.NeverMissed
import WinVm.Lib.Triples
import WinVm.Memory.Alloc
import WinVm.Memory.Allocation
import WinVm.Frontend.Lexer
import WinVm.Frontend.LiteralArrays
import WinVm.Frontend.Numerals
import WinVm.ImageStore.Edits
import WinVm.ImageStore.History
import WinVm.ImageStore.LoadOrder
import WinVm.ImageStore.SendersIndex
import WinVm.Interpreter.LookupRuns
import WinVm.ImageStore.Captures
import WinVm.ImageStore.ClassText
import WinVm.ImageStore.Editor
import WinVm.Bytecode.Counters
import WinVm.Compiler.Barrier
import WinVm.Compiler.EntryDepths
import WinVm.Debugger.Bookkeeping
import WinVm.Frontend.Assemble
import WinVm.Workers.Wakeup
import WinVm.Frontend.Continuation
import WinVm.Memory.Allocated
import WinVm.Memory.MutatorRuns
import WinVm.Memory.Verify
