import Etcdv3Client.Lib.PrefixBlock
import Etcdv3Client.Lib.Run
import Etcdv3Client.Lib.Cost
import Etcdv3Client.Lib.Monitor
import Etcdv3Client.Lib.Query
import Etcdv3Client.Lib.LastWriter
import Etcdv3Client.Lib.Cursor
import Etcdv3Client.Lib.Journal
import Etcdv3Client.Proto
import Etcdv3Client.Common
import Etcdv3Client.KV
import Etcdv3Client.Watch
import Etcdv3Client.Lease
import Etcdv3Client.PrefixRange
import Etcdv3Client.Store
import Etcdv3Client.RangeChain
import Etcdv3Client.RepeatedPrefix
import Etcdv3Client.OptionChains
import Etcdv3Client.Txn
import Etcdv3Client.TxnRun
import Etcdv3Client.Mvcc
import Etcdv3Client.Server
import Etcdv3Client.StoreCalls
import Etcdv3Client.History
import Etcdv3Client.Reads
import Etcdv3Client.LeaseServer
import Etcdv3Client.Session.Worker
import Etcdv3Client.Session.System
import Etcdv3Client.Session.Flags
import Etcdv3Client.Session.Lifecycle
import Etcdv3Client.Session.HeldLease
import Etcdv3Client.Session.Identity
import Etcdv3Client.Session.Closing
import Etcdv3Client.Session.Revoke
import Etcdv3Client.Session.Unset
import Etcdv3Client.Session.Determined
import Etcdv3Client.Session.GrantRetry
import Etcdv3Client.Session.RevokeLoop
import Etcdv3Client.Session.Interval
import Etcdv3Client.Session.Timed
import Etcdv3Client.Session.Served
import Etcdv3Client.Session.Pacing
import Etcdv3Client.Session.Ending
import Etcdv3Client.Session.Stream
import Etcdv3Client.Election.Node
import Etcdv3Client.Election.Leader
import Etcdv3Client.Election.Watch
import Etcdv3Client.Election.Revision
import Etcdv3Client.Election.TwoRuns
import Etcdv3Client.Election.Forward
import Etcdv3Client.Election.Compaction
import Etcdv3Client.Election.Cancel
import Etcdv3Client.Election.System
import Etcdv3Client.Election.Delivery
import Etcdv3Client.Election.Rounds
import Etcdv3Client.Election.Held
import Etcdv3Client.Election.Traffic
