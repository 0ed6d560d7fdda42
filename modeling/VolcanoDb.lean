import VolcanoDb.Executor.Refinement
import VolcanoDb.Executor.Typing
import VolcanoDb.Server.Lifetime
import VolcanoDb.Lib.Positions
import VolcanoDb.Server.Atomicity
import VolcanoDb.Server.Undo
import VolcanoDb.Server.Restarts
import VolcanoDb.Server.ReusedIds
import VolcanoDb.Executor.Soundness
import VolcanoDb.Executor.Grouping
import VolcanoDb.Executor.Clauses
import VolcanoDb.Executor.Ordering
import VolcanoDb.Executor.Resolution
import VolcanoDb.Lib.Json
import VolcanoDb.Transaction.Serde
import VolcanoDb.Transaction.TornLog
import VolcanoDb.Server.RedoText
import VolcanoDb.Server.Arity
import VolcanoDb.Server.Aftermath
import VolcanoDb.Server.StoredTypes
import VolcanoDb.Executor.Failures
import VolcanoDb.Server.Queries
import VolcanoDb.Server.TableNames
import VolcanoDb.Lib.Framing
import VolcanoDb.Server.Protocol
import VolcanoDb.Lib.Partition
import VolcanoDb.Executor.GroupKeys
import VolcanoDb.Executor.Rewriting
import VolcanoDb.Executor.ExactIntegers
import VolcanoDb.Executor.Comparator
import VolcanoDb.Executor.NullLogic
import VolcanoDb.Server.UnknownColumns
import VolcanoDb.Executor.JoinCommutes
import VolcanoDb.Executor.Reinit
import VolcanoDb.Executor.Accumulators
import VolcanoDb.Server.Terminators
import VolcanoDb.Server.ColumnLists
import VolcanoDb.Lib.Rounding
import VolcanoDb.Storage.Comparison
import VolcanoDb.Executor.AggFaults
import VolcanoDb.Lib.Progress
import VolcanoDb.Server.Requests
import VolcanoDb.Server.UndoSegments
import VolcanoDb.Lib.LockStep
import VolcanoDb.Lib.Trimming
import VolcanoDb.Server.Acknowledged
import VolcanoDb.Lib.Snapshot
import VolcanoDb.Server.Isolation
import VolcanoDb.Server.Panics
import VolcanoDb.Lib.Relational
import VolcanoDb.Server.Continuity
import VolcanoDb.Server.Growth
import VolcanoDb.Server.Serializability
import VolcanoDb.Executor.Totals
import VolcanoDb.Server.Boot
import VolcanoDb.Server.HashOrder
import VolcanoDb.Server.Pages
