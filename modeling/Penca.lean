import Penca.Compact.Budget
import Penca.Compact.Plan
import Penca.Compact.Waves
import Penca.Core.Types
import Penca.Core.Values
import Penca.Ddl.Evolve
import Penca.Ddl.Names
import Penca.Ddl.Transactions
import Penca.Fork.Audit
import Penca.Fork.Catalog
import Penca.Fork.Copy
import Penca.Fork.DeleteKeys
import Penca.Fork.FastForward
import Penca.Fork.Merge
import Penca.Fork.Read
import Penca.Lib.GreedyCut
import Penca.Lib.InFlight
import Penca.Lib.Inversion
import Penca.Lib.Keyed
import Penca.Lib.Newest
import Penca.Lib.Numbered
import Penca.Lib.ReadThrough
import Penca.Lib.Relational
import Penca.Lib.Runs
import Penca.Lib.SortedSeek
import Penca.Lib.StableMerge
import Penca.Lib.Versions
import Penca.Lifecycle.Branch
import Penca.Lifecycle.Compact
import Penca.Lifecycle.Headers
import Penca.Lifecycle.Invariant
import Penca.Lifecycle.Ops
import Penca.Lifecycle.PersistRace
import Penca.Lifecycle.PurgeSafety
import Penca.Lifecycle.Rewrites
import Penca.Lifecycle.Segments
import Penca.Log.Branch
import Penca.Log.Entry
import Penca.Pack.Interleave
import Penca.Pack.Partition
import Penca.Pack.RowCost
import Penca.Pack.Stream
import Penca.Query.Audit
import Penca.Query.Branch
import Penca.Query.ListCache
import Penca.Query.Ordering
import Penca.Query.Plan
import Penca.Query.PlanRace
import Penca.Query.Read
import Penca.Query.Resolve
import Penca.Query.Sidecar
import Penca.Query.TwoArm
import Penca.Scheduler.Loops
import Penca.Sql.Dml
import Penca.Sql.Insert
import Penca.Sql.Pins
import Penca.Sql.Pushdown
import Penca.Sql.Session
import Penca.Sql.StrictKeys
import Penca.Sql.Update
import Penca.Store.State
import Penca.Tx.Calls
import Penca.Tx.Counter
import Penca.Tx.Exclusion
import Penca.Tx.Expiry
import Penca.Tx.Freeze
import Penca.Tx.OpenRead
import Penca.Tx.Writes
import Penca.TxLog.Collect
import Penca.TxLog.Flush
import Penca.TxLog.Ledger
import Penca.TxLog.Resolve
import Penca.Write.Data
import Penca.Write.Identity
