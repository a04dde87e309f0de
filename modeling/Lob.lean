import Lob.Laws.Address
import Lob.Laws.Backpressure
import Lob.Laws.Band
import Lob.Laws.Buckets
import Lob.Laws.Coherence
import Lob.Laws.Connections
import Lob.Laws.Documents
import Lob.Laws.EndToEnd
import Lob.Laws.Equivalence
import Lob.Laws.Erasure
import Lob.Laws.Feed
import Lob.Laws.Fifo
import Lob.Laws.Filled
import Lob.Laws.Flow
import Lob.Laws.Fok
import Lob.Laws.Follower
import Lob.Laws.Framing
import Lob.Laws.Gridlock
import Lob.Laws.Halt
import Lob.Laws.Ledger
import Lob.Laws.Linearizable
import Lob.Laws.Lookup
import Lob.Laws.Merge
import Lob.Laws.Modify
import Lob.Laws.NodePool
import Lob.Laws.Occupancy
import Lob.Laws.OrderTypes
import Lob.Laws.Percentiles
import Lob.Laws.Polls
import Lob.Laws.Position
import Lob.Laws.Priority
import Lob.Laws.Queues
import Lob.Laws.Rehash
import Lob.Laws.Rejects
import Lob.Laws.Retained
import Lob.Laws.Routing
import Lob.Laws.SelfTrade
import Lob.Laws.Sizes
import Lob.Laws.Snapshots
import Lob.Laws.Statistics
import Lob.Laws.Streams
import Lob.Laws.Subscriber
import Lob.Laws.Symmetry
import Lob.Laws.TopOfBook
import Lob.Laws.Uncrossed
import Lob.Laws.Wire
import Lob.Laws.Workload
