import Congruent.AccessGate
import Congruent.ContentAddressed
import Congruent.Converge
import Congruent.Escalation
import Congruent.EventKeys
import Congruent.FinalVerdicts
import Congruent.FirstSeen
import Congruent.ForwardExtremities
import Congruent.AbortGeneration
import Congruent.InFlight
import Congruent.ReliableQueue
import Congruent.Sender
import Congruent.StateAtEvent
import Congruent.StateCache
import Congruent.VerifiedAppends
import Congruent.SoftFailed
import Congruent.JoinedTable
import Congruent.ReconcileQueue
import Congruent.Transactions
import Congruent.ReadReceipts
import Congruent.ToDevice
import Congruent.DeviceLists
import Congruent.ShortIds
import Congruent.Verdicts
import Congruent.StateRoots
import Congruent.AuthClosures
import Congruent.Triggers
import Congruent.ShortRooms
import Congruent.Promotions
import Congruent.MissingEvents
import Congruent.TopoIndex
import Congruent.TimestampIndex
import Congruent.LeanEvents
import Congruent.AuthChainFresh
import Congruent.Redb
import Congruent.KeyTuples
import Congruent.AuthChainSort
import Congruent.PreviousRoot
import Congruent.CurrentRoot
import Congruent.PromoteOutlier
import Congruent.AuthRecursion
import Congruent.FetchedState
import Congruent.DeviceListEdus
import Congruent.ReceiptWindow
import Congruent.JsonText
import Congruent.KeyScan
import Congruent.KeyScanAgrees
import Congruent.KeyScanVerdict
import Congruent.InviteVia
import Congruent.Reconcile
import Congruent.QueueKeys
import Congruent.MemoisedLevel
import Congruent.CreateMemo
import Congruent.PrivateReads
import Congruent.ReadPositions
import Congruent.MainlineStrays
import Congruent.Subgraph
import Congruent.KahnOrder
import Congruent.DagSort
import Congruent.UnchangedLevels
import Congruent.SelectedState
import Congruent.CreatorUnwrap
import Congruent.MembershipTable
import Congruent.Reachability
import Congruent.Extremities
import Congruent.ExtremityGraph
import Congruent.StateKeys
import Congruent.TipWrites
import Congruent.Recalculation
import Congruent.SenderPower
import Congruent.ResolverLevels
import Congruent.OrphanScan
import Congruent.LatticeRuns
import Congruent.RawIds
import Congruent.DagWalker
import Congruent.CanonicalJson
import Congruent.PrivilegedCreators
import Congruent.PrevEventSort
import Congruent.Overrides
import Congruent.ReorderBatches
import Congruent.ReindexChains
import Congruent.RecursiveGet
import Congruent.KeyPrefixes
import Congruent.SkippedRecords
import Congruent.TopoPages
import Congruent.RelationPages
import Congruent.BatchLookups
import Congruent.ForceReindex
import Congruent.Publication
import Congruent.OwnedRows
import Congruent.DeviceKeyUpdates
import Congruent.DeviceKeyWindows
import Congruent.DeviceKeyCursors
import Congruent.Watchers
import Congruent.LongPoll
import Congruent.ToDeviceInbox
import Congruent.InboxWindows
import Congruent.DelayedEvents
import Congruent.DelayedEventPhases
import Congruent.DelayedEventOutcomes
import Congruent.MutexMap
import Congruent.OneTimeKeys
import Congruent.OneTimeKeyClaims
import Congruent.DeviceTokens
import Congruent.DeviceTokenRuns
import Congruent.DeviceTokenSafety
