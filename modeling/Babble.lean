import Babble.Hex
import Babble.Maps
import Babble.Rolling
import Babble.Peers
import Babble.Event
import Babble.Runtime
import Babble.Round
import Babble.Block
import Babble.Exec
import Babble.Store
import Babble.Query
import Babble.Hashgraph
import Babble.Consensus
import Babble.Frames
import Babble.Process
import Babble.Core
import Babble.Sample
import Babble.EventGraph
import Babble.Voting
import Babble.Answers
import Babble.Fame
import Babble.Reception
import Babble.Insertion
import Babble.Division
import Babble.WellFormed
import Babble.Listing
import Babble.Framing
import Babble.Run
import Babble.Chains
import Babble.Wire
import Babble.Membership
import Babble.History
import Babble.BlockCheck
import Babble.FastForward
import Babble.Universe
import Babble.Coordinates
import Babble.Exactness
import Babble.Calls
import Babble.Accounting
import Babble.Runs
import Babble.Replicas
import Babble.RoundDefinition
import Babble.Agreement
import Babble.Consistency
import Babble.Ledger
import Babble.Chronicle
import Babble.BlockAgreement
import Babble.Tally
import Babble.Interleaving
import Babble.NodeState
import Babble.Leaving
import Babble.Shelf
import Babble.Anchor
import Babble.Database
import Babble.Sync
import Babble.Head
import Babble.Payload
import Babble.Loading
import Babble.Tracking
import Babble.FrameOrder
import Babble.Atomicity
import Babble.SignaturePool
import Babble.EventCache
import Babble.ValidatorSet
import Babble.Verification
import Babble.Diff
import Babble.StrongSight
import Babble.Timestamp
import Babble.ObjectStream
import Babble.Rpc
import Babble.RollingLog
import Babble.PeerSetTable
import Babble.PeerSetHash
import Babble.Goroutines
import Babble.BigEndian
import Babble.PrivateKey
import Babble.Enlisting
import Babble.Quorums
import Babble.Ancestry
import Babble.CatchUp
import Babble.Serving
import Babble.Interludes
import Babble.Gossip
import Babble.Network
import Babble.NetworkAgreement
import Babble.Broadcast
import Babble.Exchange
import Babble.Delivery
