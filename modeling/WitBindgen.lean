import WitBindgen.Library.Footprint
import WitBindgen.Library.Code
import WitBindgen.Library.UnionFind
import WitBindgen.Library.Runs
import WitBindgen.Library.Outcome
import WitBindgen.Wit.Ty
import WitBindgen.Wit.Parser
import WitBindgen.Wit.Canonical
import WitBindgen.Abi.Instruction
import WitBindgen.Abi.Generator
import WitBindgen.Abi.Deallocate
import WitBindgen.Canon.Word
import WitBindgen.Canon.Memory
import WitBindgen.Canon.Flat
import WitBindgen.Machine.Recorder
import WitBindgen.Machine.Semantics
import WitBindgen.Canon.Stored
import WitBindgen.Canon.Lowered
import WitBindgen.Machine.Steps
import WitBindgen.Machine.Lowering
import WitBindgen.Machine.Lifting
import WitBindgen.Machine.RoundTrip
import WitBindgen.Wit.Resolve
import WitBindgen.Types.Shape
import WitBindgen.Types.Equality
import WitBindgen.Types.Classes
import WitBindgen.Types.Soundness
import WitBindgen.Rt.Waitable
import WitBindgen.Rt.Registration
import WitBindgen.Rt.Subtask
import WitBindgen.Rt.Migration
import WitBindgen.Rt.Driver
import WitBindgen.Rt.Ownership
import WitBindgen.Rt.Stream
import WitBindgen.Rt.EndOfLife
import WitBindgen.C.Buffers
import WitBindgen.C.Destructors
import WitBindgen.Library.Ledger
import WitBindgen.Rust.Accounts
import WitBindgen.Rust.Disposal
import WitBindgen.Moonbit.Coroutine
import WitBindgen.Moonbit.Semaphore
import WitBindgen.Moonbit.StreamCalls
import WitBindgen.Moonbit.StreamFlow
import WitBindgen.Moonbit.Subtask
import WitBindgen.Moonbit.SubtaskRuns
import WitBindgen.Moonbit.Subscribed
import WitBindgen.Moonbit.SubscribedOps
import WitBindgen.Moonbit.SubscribedRuns
import WitBindgen.Rt.Component
import WitBindgen.CSharp.AsyncRuns
import WitBindgen.CSharp.ExportedResource
import WitBindgen.CSharp.InstanceRuns
import WitBindgen.CSharp.Results
import WitBindgen.Moonbit.OutgoingRuns
import WitBindgen.C.Autodrop
import WitBindgen.C.AutodropPlaces
import WitBindgen.C.AutodropRuns
import WitBindgen.Moonbit.TaskGroup
import WitBindgen.Moonbit.TaskGroupRuns
import WitBindgen.Library.Handles
import WitBindgen.Moonbit.ExportedResource
import WitBindgen.Go.ExportedResource
import WitBindgen.Cpp.ExportedHandles
import WitBindgen.Abi.Call
import WitBindgen.Abi.Keeps
import WitBindgen.Machine.Calls
import WitBindgen.Machine.ExportMeaning
import WitBindgen.Machine.ParamArea
import WitBindgen.Library.Trace
import WitBindgen.Go.FunctionGenerator
import WitBindgen.Go.Texts
import WitBindgen.Go.Operands
import WitBindgen.Go.PinnedCalls
import WitBindgen.Cpp.SymbolName
import WitBindgen.Cpp.Namespaces
import WitBindgen.Cpp.SortTypes
import WitBindgen.Cpp.ContainerRuns
import WitBindgen.Go.Reading
import WitBindgen.Abi.ListBuffer
import WitBindgen.Go.Packages
import WitBindgen.Types.Flags
import WitBindgen.Machine.Disposal
import WitBindgen.CSharp.Borrows
import WitBindgen.Abi.FlagWords
import WitBindgen.Moonbit.AsyncAbi
import WitBindgen.Moonbit.Promise
import WitBindgen.Moonbit.Sink
import WitBindgen.Rt.BlockOn
import WitBindgen.Rt.ReadRuns
import WitBindgen.Rt.Spawn
import WitBindgen.Moonbit.SinkRuns
import WitBindgen.C.Identifiers
import WitBindgen.Abi.Traces
import WitBindgen.CSharp.RepTableRuns
import WitBindgen.Core.AsyncFilterSet
import WitBindgen.Core.ModuleNames
import WitBindgen.Core.Source
import WitBindgen.Moonbit.EndpointDrops
import WitBindgen.Rust.ComponentType
import WitBindgen.Types.Forest
