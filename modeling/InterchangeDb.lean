import InterchangeDb.Btree.Overwriting
import InterchangeDb.Btree.Statistics
import InterchangeDb.Buffer.FrameOwnership
import InterchangeDb.Database.DirtyReads
import InterchangeDb.Database.FailedCommit
import InterchangeDb.Database.GcUnobservable
import InterchangeDb.Database.Pruning
import InterchangeDb.Database.ReadCommitted
import InterchangeDb.Database.RejectedWrites
import InterchangeDb.Database.Restarts
import InterchangeDb.Lsm.Concurrent
import InterchangeDb.Lsm.CrashPoints
import InterchangeDb.Lsm.Engine
import InterchangeDb.Lsm.FailedFlush
import InterchangeDb.Sql.FailedStatement
import InterchangeDb.Sql.FromClause
import InterchangeDb.Sql.JoinStrategies
import InterchangeDb.Sql.Histogram
import InterchangeDb.Sql.Like
import InterchangeDb.Sql.Prepared
import InterchangeDb.Sql.PushPull
import InterchangeDb.Txn.FrontRequests
import InterchangeDb.Wal.TornTail
