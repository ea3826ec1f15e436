import WiseKernel.Lib.Window
import WiseKernel.Lib.Traced
import WiseKernel.Lib.LittleEndian
import WiseKernel.Lib.Blocks
import WiseKernel.Lib.Unicode
import WiseKernel.Lib.Sticky
import WiseKernel.Net.Result
import WiseKernel.Net.ResizeBuffer
import WiseKernel.Net.Modifier
import WiseKernel.Net.ModifierSpec
import WiseKernel.Net.BitsProtocol
import WiseKernel.Net.Pipeline
import WiseKernel.Net.Session
import WiseKernel.Net.HostileFrame
import WiseKernel.Net.ReceiveLoop
import WiseKernel.Net.Termination
import WiseKernel.Net.Isolation
import WiseKernel.Net.Framing
import WiseKernel.Net.Streams
import WiseKernel.Net.ModifiedStreams
import WiseKernel.Net.Concurrent
import WiseKernel.Net.Connection
import WiseKernel.Net.HandOver
import WiseKernel.Net.SegmentBuffer
import WiseKernel.Net.SegmentPool
import WiseKernel.Net.Rewinds
import WiseKernel.Net.TcpSession
import WiseKernel.Net.Teardown
import WiseKernel.Lib.Crc
import WiseKernel.Util.Crc32
import WiseKernel.Util.Split
import WiseKernel.Util.Utf8
import WiseKernel.Packing.Types
import WiseKernel.Packing.BitsPacker
import WiseKernel.Packing.Poison
import WiseKernel.Packing.Message
import WiseKernel.Packing.Wire
import WiseKernel.Packing.ZeroBytes
import WiseKernel.Packing.Reuse
import WiseKernel.Packing.RoundTrip
import WiseKernel.Packing.Local
import WiseKernel.Packing.Generated
import WiseKernel.Client.Packer
import WiseKernel.Client.Streaming
import WiseKernel.Client.Agreement
import WiseKernel.Client.Modifier
import WiseKernel.Client.Protocol
import WiseKernel.Client.ModifierSpec
import WiseKernel.Client.Pipeline
import WiseKernel.Client.Frames
import WiseKernel.Client.Lockstep
import WiseKernel.Client.Chunks
import WiseKernel.Client.Bounds
import WiseKernel.Client.HostileBytes
import WiseKernel.Client.Interop
import WiseKernel.Client.Session
import WiseKernel.Client.Network
import WiseKernel.Client.FromServer
import WiseKernel.Client.RoundTrip
import WiseKernel.Client.Channel
import WiseKernel.Idl.Program
import WiseKernel.Idl.TxQuery
import WiseKernel.Idl.Names
import WiseKernel.Idl.Lookup
import WiseKernel.Idl.Expression
import WiseKernel.Idl.Lexer
import WiseKernel.Dbc.Result
import WiseKernel.Server.DbPool
import WiseKernel.Server.DbService
import WiseKernel.Idl.Context
import WiseKernel.Idl.Cplus
import WiseKernel.Idl.Csharp
import WiseKernel.Idl.SameWire
import WiseKernel.Idl.TxCode
import WiseKernel.Idl.TxWritten
import WiseKernel.Idl.TxSymmetry
import WiseKernel.Lib.Loans
import WiseKernel.Lib.Runs
import WiseKernel.Lib.SignedSum
import WiseKernel.Lib.Table
import WiseKernel.Lib.Regex
import WiseKernel.Lib.Threads
import WiseKernel.Lib.Tokens
import WiseKernel.Net.SlotVector
import WiseKernel.Net.SlotCapacity
import WiseKernel.Net.TcpNode
import WiseKernel.Core.Sequence
import WiseKernel.Core.IdPool
import WiseKernel.Core.Timer
import WiseKernel.Core.TimerState
import WiseKernel.Core.TimerPoll
import WiseKernel.Core.TimerFires
import WiseKernel.Core.TimerSteps
import WiseKernel.Core.TimerCancel
import WiseKernel.Core.TimerDuration
import WiseKernel.Core.TimerHolder
import WiseKernel.Core.Publishing
import WiseKernel.Core.ChannelMap
import WiseKernel.Core.MemTracker
import WiseKernel.Core.MemTrackerOps
import WiseKernel.Core.ObjectPool
import WiseKernel.Core.Task
import WiseKernel.Core.TaskScheduler
import WiseKernel.Core.Custody
import WiseKernel.Core.TaskTokens
import WiseKernel.Core.TaskView
import WiseKernel.Core.TaskLifecycle
import WiseKernel.Core.TaskShutdown
import WiseKernel.Core.Topic
import WiseKernel.Core.Spinlock
import WiseKernel.Core.SubMap
import WiseKernel.Core.Subscriptions
import WiseKernel.Core.Delivery
import WiseKernel.Core.Channel
import WiseKernel.Server.ActorIdGenerator
import WiseKernel.Server.ActorCluster
import WiseKernel.Server.ActorDirectory
import WiseKernel.Server.Registration
import WiseKernel.Server.Contention
import WiseKernel.Server.Handshake
import WiseKernel.Server.Reconnect
import WiseKernel.Net.BufferPool
import WiseKernel.Net.RawBuffer
import WiseKernel.Net.Resize
