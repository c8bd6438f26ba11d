import PelicanQ.Lib.Words
import PelicanQ.Lib.OrdMap
import PelicanQ.Lib.Along
import PelicanQ.Lib.Program
import PelicanQ.Lib.Codec
import PelicanQ.Sled.Database
import PelicanQ.Core.Message
import PelicanQ.Core.Keys
import PelicanQ.Core.QueueManager
import PelicanQ.Core.Execution
import PelicanQ.Core.Runs
import PelicanQ.Core.Snapshot
import PelicanQ.Core.Nodes
import PelicanQ.Raft.StateMachine
import PelicanQ.Raft.Types
import PelicanQ.Raft.Storage
import PelicanQ.Raft.Execution
import PelicanQ.Raft.Effects
import PelicanQ.Broker.State
import PelicanQ.Broker.Represents
import PelicanQ.Broker.Refinement
import PelicanQ.Broker.Moves
import PelicanQ.Broker.Runs
import PelicanQ.Broker.Script
import PelicanQ.Broker.Classes
import PelicanQ.Broker.Twins
import PelicanQ.Broker.Beside
import PelicanQ.Broker.Snapshot
import PelicanQ.Broker.Nodes
import PelicanQ.Broker.Log
import PelicanQ.Broker.Replay
import PelicanQ.Broker.Contents
import PelicanQ.Broker.Bytes
import PelicanQ.Broker.Places
import PelicanQ.Guarantees.Conservation
import PelicanQ.Guarantees.Order
import PelicanQ.Guarantees.Tags
import PelicanQ.Guarantees.Isolation
import PelicanQ.Guarantees.Collisions
import PelicanQ.Guarantees.Noninterference
import PelicanQ.Guarantees.Restoration
import PelicanQ.Guarantees.CatchUp
import PelicanQ.Guarantees.ByteAccounting
import PelicanQ.Guarantees.Timeliness
import PelicanQ.Guarantees.DeadLetters
import PelicanQ.Guarantees.Metadata
import PelicanQ.Guarantees.Declined
import PelicanQ.Guarantees.Representation
import PelicanQ.Guarantees.Retention
import PelicanQ.Guarantees.Arithmetic
import PelicanQ.Guarantees.Recovery
import PelicanQ.Guarantees.Interruption
import PelicanQ.Guarantees.Faults
import PelicanQ.Guarantees.Promotion
import PelicanQ.Daemon.Engine
import PelicanQ.Daemon.Grpc
import PelicanQ.Daemon.Http
import PelicanQ.Daemon.Mqtt
import PelicanQ.Daemon.Requests
import PelicanQ.Lib.Text
import PelicanQ.Daemon.ClusterConfig
import PelicanQ.Guarantees.Batches
import PelicanQ.Guarantees.Acceptance
import PelicanQ.Guarantees.Orderly
import PelicanQ.Guarantees.Engines
import PelicanQ.Guarantees.Topology
import PelicanQ.Lib.IndexedLog
import PelicanQ.Lib.Crash
import PelicanQ.Sled.Crash
import PelicanQ.Guarantees.LogStore
import PelicanQ.Guarantees.Crashes
import PelicanQ.Guarantees.Votes
import PelicanQ.Guarantees.Marks
import PelicanQ.Guarantees.Restart
import PelicanQ.Guarantees.Replacement
import PelicanQ.Guarantees.Adoption
import PelicanQ.Guarantees.Agreement
import PelicanQ.Guarantees.Clocks
import PelicanQ.Guarantees.Deduplication
import PelicanQ.Daemon.Connection
import PelicanQ.Daemon.Stream
import PelicanQ.Daemon.System
import PelicanQ.Lib.Leads
import PelicanQ.Lib.Holdings
import PelicanQ.Guarantees.Serving
import PelicanQ.Guarantees.Following
import PelicanQ.Guarantees.Waiting
import PelicanQ.Guarantees.Acts
import PelicanQ.Guarantees.PacketIds
import PelicanQ.Guarantees.Streams
import PelicanQ.Lib.Since
import PelicanQ.Guarantees.Replies
import PelicanQ.Guarantees.Subscriptions
import PelicanQ.Guarantees.Custody
import PelicanQ.Guarantees.Books
import PelicanQ.Guarantees.Abandonment
import PelicanQ.Guarantees.Stranding
import PelicanQ.Guarantees.Sessions
