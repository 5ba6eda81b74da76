import Katas.Core.LTS
import Katas.Core.Prog
import Katas.Core.Outline
import Katas.Core.SeqRing
import Katas.Turnstile.Api
import Katas.Turnstile.Go.Ring
import Katas.Turnstile.Ledger
import Katas.Turnstile.LedgerInv
import Katas.Turnstile.LedgerSteps
import Katas.Turnstile.Go.RingInv
import Katas.Turnstile.Go.RingOutline
import Katas.Turnstile.LedgerFacts
import Katas.Turnstile.Go.RingSafety
import Katas.Turnstile.Go.RingOrder
import Katas.Turnstile.Go.WaitInv
import Katas.Turnstile.Go.WaitOutline
import Katas.Turnstile.Go.NoLostWakeup
import Katas.Turnstile.Cpp.Queue
import Katas.Turnstile.Cpp.QueueInv
import Katas.Turnstile.Cpp.QueueOutline
import Katas.Turnstile.Cpp.QueueSafety
import Katas.Turnstile.Cpp.WaitInv
import Katas.Turnstile.Cpp.WaitSteps
import Katas.Turnstile.Cpp.WaitOutline
import Katas.Turnstile.Cpp.CloseWake
import Katas.Turnstile.Cpp.CloseOutline
import Katas.Turnstile.Cpp.NoLostWakeup
import Katas.Turnstile.Go.Tickets
import Katas.Turnstile.Cpp.Tickets
import Katas.Core.Flow
import Katas.Core.Spsc
import Katas.Core.Object
import Katas.Core.Counter
import Katas.Weir.SpscRing
import Katas.Weir.SpscFifo
import Katas.Weir.Channels
import Katas.Weir.ChannelFlow
import Katas.Weir.ChannelOwners
import Katas.Weir.ChannelDrain
import Katas.Weir.ChannelCounts
import Katas.Weir.ChannelLive
import Katas.Turnstile.Cpp.ShardedQueue
import Katas.Turnstile.Cpp.ShardedFlow
import Katas.Turnstile.Cpp.ShardedInv
import Katas.Turnstile.Cpp.ShardedSafety
import Katas.Weir.Pipeline
import Katas.Weir.PipelineState
import Katas.Weir.PipelineFlow
import Katas.Weir.PipelineFollows
import Katas.Weir.PipelineCalls
import Katas.Weir.PipelineOwners
import Katas.Weir.PipelineRings
import Katas.Core.Extend
import Katas.Weir.Handles
import Katas.Weir.HandleOwners
import Katas.Weir.PipelineOrder
import Katas.Weir.PipelineBits
import Katas.Weir.AsyncOrder
import Katas.Switchyard.Dispatch
import Katas.Switchyard.Direct16
import Katas.Switchyard.Compact
import Katas.Switchyard.Abi
import Katas.Turnstile.Cpp.MutexWakeups
import Katas.Weir.PipelineParking
import Katas.Weir.PipelineReclaim
import Katas.Switchyard.Reorder
import Katas.Core.Rank
import Katas.Turnstile.Histogram
import Katas.Turnstile.Words
import Katas.Turnstile.WordsFifo
import Katas.Core.Bits
import Katas.Weir.Drain
import Katas.Weir.Scans
import Katas.Weir.PipelineHints
import Katas.Weir.PipelineDepth
import Katas.Weir.PipelineStats
import Katas.Weir.PipelineDelivers
import Katas.Weir.Baseline
import Katas.Weir.BaselineContract
import Katas.Weir.PipelineTransport
import Katas.Weir.ChannelTransport
import Katas.Weir.Transports
import Katas.Core.Mixing
import Katas.Turnstile.Event
import Katas.Core.Rearrange
import Katas.Switchyard.Ordered
import Katas.Switchyard.PacketStream
import Katas.Turnstile.Cpp.MutexFifo
import Katas.Core.Records
import Katas.Weir.Wire
import Katas.Weir.PythonRings
import Katas.Weir.PythonPipeline
import Katas.Weir.Interchange
import Katas.Weir.RoundTrip
import Katas.Core.Cyclic
import Katas.Turnstile.Cpp.ShardedTurns
import Katas.Weir.PipelineAccounts
import Katas.Weir.PipelineRegistry
import Katas.Turnstile.Driver
import Katas.Switchyard.TableProbes
import Katas.Switchyard.Invariants
import Katas.Turnstile.Go.Chan
import Katas.Turnstile.Go.ChanSteps
import Katas.Turnstile.Go.ChanFifo
import Katas.Switchyard.Plugin
import Katas.Switchyard.Boundary
import Katas.Switchyard.Mechanism
import Katas.Weir.Sinks
import Katas.Core.Log
import Katas.Turnstile.Go.ChanRun
