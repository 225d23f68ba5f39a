import CacheServer.Model.MemoryQueue
import CacheServer.Model.Connection
import CacheServer.Model.BlockedConnections
import CacheServer.Model.Server
import CacheServer.Library.Tiling
import CacheServer.Ring.Layout
import CacheServer.Ring.Eviction
import CacheServer.Ring.Allocate
import CacheServer.Ring.Tracking
import CacheServer.Ring.Runs
import CacheServer.Library.KeyedList
import CacheServer.Ring.Coherence
import CacheServer.Ring.IndexRuns
import CacheServer.Wire.LockEvents
import CacheServer.Wire.Framing
import CacheServer.Wire.Accounting
import CacheServer.Wire.Responses
import CacheServer.Library.Fuel
import CacheServer.Library.LinkedChain
import CacheServer.Scheduler.ActiveList
import CacheServer.Scheduler.Queues
import CacheServer.Scheduler.Rounds
import CacheServer.Scheduler.Schedule
import CacheServer.Library.Carousel
import CacheServer.Scheduler.Rotation
import CacheServer.Scheduler.Waking
import CacheServer.Sharing.Ownership
import CacheServer.Sharing.Effects
import CacheServer.Sharing.Regions
import CacheServer.Sharing.Connections
import CacheServer.Sharing.Interleaving
import CacheServer.Sharing.Exclusive
import CacheServer.Sharing.Uploads
import CacheServer.Sharing.Indexing
import CacheServer.Index.KeyRuns
import CacheServer.Ring.Admission
import CacheServer.Ring.Cleaning
import CacheServer.Ring.WriteRequests
import CacheServer.Scheduler.ListRuns
import CacheServer.Scheduler.WaitQueues
import CacheServer.Wire.KeyBuffers
import CacheServer.Model.CacheClient
import CacheServer.Wire.Client
import CacheServer.Library.Pattern
import CacheServer.Model.CacheProtocol
import CacheServer.Wire.ProtocolText
import CacheServer.Wire.ProtocolLines
import CacheServer.Wire.ProtocolReading
import CacheServer.Wire.Overlay
import CacheServer.Wire.EmptyPhases
import CacheServer.Scheduler.ClosedPeers
import CacheServer.Sharing.KeyBlocks
import CacheServer.Sharing.KeyHeap
import CacheServer.Sharing.Faults
import CacheServer.Sharing.Requests
import CacheServer.Sharing.Ledger
import CacheServer.Sharing.Serving
import CacheServer.Sharing.Delivery
import CacheServer.Sharing.Replies
import CacheServer.Sharing.Linearized
import CacheServer.RobinHood.Runs
import CacheServer.Index.TableIndex
import CacheServer.Startup.Parsing
import CacheServer.Index.TableServer
