import TinyStm.Result.Etl
import TinyStm.Result.Irrevocable
import TinyStm.Result.Wt
import TinyStm.Result.ReadOnly
import TinyStm.Result.NoRetry
import TinyStm.Result.NeverAborts
import TinyStm.Result.Commit
import TinyStm.Result.OwnWrites
import TinyStm.Result.Wrappers
import TinyStm.Result.Nesting
import TinyStm.Result.Modular
import TinyStm.Result.Exclusive
import TinyStm.Result.Token
import TinyStm.Result.Barrier
import TinyStm.Result.Rollover
import TinyStm.Result.Reclaim
import TinyStm.Result.Log
import TinyStm.Result.Callbacks
import TinyStm.Result.Free
import TinyStm.Result.HeadRoom
import TinyStm.Result.Locks
import TinyStm.Result.Priority
import TinyStm.Result.Stats
import TinyStm.Result.Realloc
import TinyStm.Result.LogArray
import TinyStm.Result.Backoff
import TinyStm.Result.Aborts
import TinyStm.Result.Undo
import TinyStm.Result.Snapshots
import TinyStm.Result.CtlSnapshots
import TinyStm.Result.Alloc
import TinyStm.Result.Encoding
import TinyStm.Result.Filter
import TinyStm.Result.Percentiles
import TinyStm.Result.AtomicBlocks
import TinyStm.Result.Order
import TinyStm.Result.Blocks
import TinyStm.Unit.Model
import TinyStm.Result.UnitStore
import TinyStm.Result.RealTime
import TinyStm.Result.Reader
import TinyStm.Result.Committed
import TinyStm.Result.Bank
import TinyStm.Result.Alone
