import BdbMsgStore.Lib.OrdMap
import BdbMsgStore.Lib.TwoLevel
import BdbMsgStore.Lib.Words
import BdbMsgStore.PidTracker
import BdbMsgStore.AsyncOperationLogger
import BdbMsgStore.Lib.KeyedLog
import BdbMsgStore.LogReplay
import BdbMsgStore.LogCleaning
import BdbMsgStore.JournalImpl
import BdbMsgStore.Message
import BdbMsgStore.Lib.Runs
import BdbMsgStore.StoreProvider
import BdbMsgStore.Frame
import BdbMsgStore.EnqueueSide
import BdbMsgStore.Durability
import BdbMsgStore.DequeueSide
import BdbMsgStore.Quiescence
import BdbMsgStore.Recovery
import BdbMsgStore.RecoveryPasses
import BdbMsgStore.RecoverySpec
import BdbMsgStore.Resurrection
import BdbMsgStore.NoResurrection
import BdbMsgStore.Redelivery
import BdbMsgStore.Freshness
import BdbMsgStore.AfterRecovery
import BdbMsgStore.Catchup
import BdbMsgStore.Overtaking
import BdbMsgStore.LogParse
import BdbMsgStore.TornFiles
import BdbMsgStore.Lib.KeyWords
import BdbMsgStore.LogChronology
import BdbMsgStore.LogCrash
import BdbMsgStore.MessageRoutes
import BdbMsgStore.Lib.LogCycles
import BdbMsgStore.CyclicLog
import BdbMsgStore.Balance
import BdbMsgStore.Requeue
import BdbMsgStore.RecoveredLogs
import BdbMsgStore.LogAgreement
import BdbMsgStore.Idempotence
import BdbMsgStore.AddedIds
import BdbMsgStore.Lib.Btree
import BdbMsgStore.BtCompare
import BdbMsgStore.BtreeJournal
import BdbMsgStore.LoadContent
import BdbMsgStore.Lib.Paths
import BdbMsgStore.JournalPaths
import BdbMsgStore.Configuration
import BdbMsgStore.QueueCreation
import BdbMsgStore.Lib.MultiMap
import BdbMsgStore.Bindings
import BdbMsgStore.Truncation
import BdbMsgStore.BindingSurvival
import BdbMsgStore.LogFailures
import BdbMsgStore.LoadWaits
import BdbMsgStore.Failures
import BdbMsgStore.FailedEnqueues
import BdbMsgStore.RecoveryOps
import BdbMsgStore.CompletionOrder
import BdbMsgStore.QueueIdentity
import BdbMsgStore.ReplayCounter
import BdbMsgStore.MassComplete
import BdbMsgStore.Lib.Wakeups
import BdbMsgStore.LostWakeups
import BdbMsgStore.TxnCtxt
import BdbMsgStore.PluginRecovery
import BdbMsgStore.Lib.Bags
import BdbMsgStore.PoolRuns
import BdbMsgStore.PoolService
import BdbMsgStore.Pooled
import BdbMsgStore.PooledProgress
import BdbMsgStore.Finalize
import BdbMsgStore.FinalizeRestart
import BdbMsgStore.MonitoredPending
import BdbMsgStore.MonitoredCounts
import BdbMsgStore.LogLifetime
