import Feldera.Circuit.RestorePlan
import Feldera.Circuit.SchedulerWakeup
import Feldera.Exchange.Delivery
import Feldera.File.CursorRun
import Feldera.Manager.Compilation
import Feldera.Manager.Tenants
import Feldera.Manager.WorkerAssignment
import Feldera.Operator.AggregateMaintained
import Feldera.Operator.InputUpsertWaterline
import Feldera.Operator.NeighborhoodUnion
import Feldera.Operator.SetUpsert
import Feldera.Operator.TopKRank
import Feldera.Operator.WindowRun
import Feldera.Sql.Strings
import Feldera.Sql.UnsignedWrapper
import Feldera.Sql.Windows
import Feldera.Storage.BufferCache
import Feldera.Storage.CheckpointerRun
import Feldera.Storage.PosixStartup
import Feldera.TimeSeries.Ranges
import Feldera.Trace.SaturatingCursor
import Feldera.Trace.SpineCursor
import Feldera.Sql.Calendar
import Feldera.Sql.MonthsBetween
import Feldera.Adapters.KafkaOutput
import Feldera.Operator.Accumulator
import Feldera.Adapters.UrlStream
import Feldera.Adapters.Watermarks
import Feldera.Utils.AdvanceRetreat
