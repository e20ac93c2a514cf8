import Mdrj.Core.Codes
import Mdrj.Core.Dict
import Mdrj.Core.Memo
import Mdrj.L1Encoding.Flt
import Mdrj.L1Encoding.Rounding
import Mdrj.L1Encoding.Sha256
import Mdrj.L1Encoding.Json
import Mdrj.L1Encoding.Event
import Mdrj.L1Encoding.Reading
import Mdrj.L1Encoding.Codec
import Mdrj.L1Encoding.Preimage
import Mdrj.L2Consensus.Engine
import Mdrj.Core.Dag
import Mdrj.Core.Election
import Mdrj.Core.Sorting
import Mdrj.Core.ListOrder
import Mdrj.Core.Rank
import Mdrj.Core.Toposort
import Mdrj.Core.Runs
import Mdrj.Core.BreadthFirst
import Mdrj.L2Consensus.AncestorCache
import Mdrj.L2Consensus.Ancestry
import Mdrj.L2Consensus.Listing
import Mdrj.L2Consensus.Resolver
import Mdrj.L2Consensus.Rounds
import Mdrj.L2Consensus.Fame
import Mdrj.L2Consensus.Order
import Mdrj.L2Consensus.Pass
import Mdrj.L2Consensus.Views
import Mdrj.L2Consensus.OrderFree
import Mdrj.L2Consensus.Finality
import Mdrj.L2Consensus.RoundLaws
import Mdrj.L2Consensus.Causality
import Mdrj.L2Consensus.Observations
import Mdrj.L2Consensus.Timestamps
import Mdrj.L2Consensus.Inputs
import Mdrj.L3Store.Storage
import Mdrj.L3Store.Writes
import Mdrj.L3Store.Replica
import Mdrj.L3Store.Representation
import Mdrj.L4Node.Node
import Mdrj.L4Node.Graph
import Mdrj.L4Node.Redelivery
import Mdrj.L4Node.Snapshot
import Mdrj.L4Node.Checkpoint
import Mdrj.L4Node.Quorums
import Mdrj.L4Node.Membership
import Mdrj.L4Node.Forgery
import Mdrj.L4Node.Retention
import Mdrj.L4Node.Tamper
import Mdrj.L4Node.HourlyStatus
import Mdrj.L4Node.Pruning
import Mdrj.L5Cluster.Agreement
import Mdrj.L6Api.Auth
import Mdrj.L6Api.Sessions
import Mdrj.L4Node.Debounce
import Mdrj.L4Node.FrontierSync
import Mdrj.L4Node.Freshness
import Mdrj.L4Node.Progress
import Mdrj.L4Node.Certificates
import Mdrj.L4Node.Interleaving
import Mdrj.L4Node.SelfChain
import Mdrj.L4Node.Survivors
import Mdrj.L2Consensus.Flat
import Mdrj.L4Node.OldCheckpoints
import Mdrj.Core.Table
import Mdrj.Core.WorkQueue
import Mdrj.L3Store.Columns
import Mdrj.L4Node.Peers
import Mdrj.L4Node.Removal
import Mdrj.L4Node.Reconfiguration
import Mdrj.L4Node.Gossip
import Mdrj.L4Node.Planning
import Mdrj.L4Node.Archive
import Mdrj.L4Node.Lifecycle
import Mdrj.L5Cluster.Durability
import Mdrj.L4Node.ClearFlood
import Mdrj.Core.Backlog
import Mdrj.L4Node.Visualizer
import Mdrj.Core.Streaks
import Mdrj.Core.Joined
import Mdrj.L4Node.ConsensusMonitor
import Mdrj.L5Cluster.Convergence
import Mdrj.L5Cluster.AutoPropose
import Mdrj.L4Node.Relay
import Mdrj.L4Node.TamperAlerts
import Mdrj.L5Cluster.Dissemination
import Mdrj.Core.LineFormat
import Mdrj.L6Api.Exposition
import Mdrj.L6Api.SessionLife
import Mdrj.L6Api.Access
import Mdrj.Core.Base64
import Mdrj.L6Api.Passwords
import Mdrj.Core.Pointwise
import Mdrj.L5Cluster.ClockOrder
import Mdrj.L5Cluster.Clocks
import Mdrj.L4Node.ClearTokens
import Mdrj.Core.Patterns
import Mdrj.Core.Segments
import Mdrj.L4Node.AuthLog
import Mdrj.L4Node.Tailing
import Mdrj.L4Node.Bursts
import Mdrj.L4Node.Policy
import Mdrj.L4Node.Collectors
import Mdrj.L4Node.FileWatch
import Mdrj.L4Node.ProcWatch
import Mdrj.L4Node.CollectorLoops
import Mdrj.L4Node.Restart
import Mdrj.L2Consensus.Reception
