import Leibrix.Transition
import Leibrix.KeyValue
import Leibrix.Interleave
import Leibrix.UpTo
import Leibrix.PairedKeys
import Leibrix.Numerals
import Leibrix.FileTree
import Leibrix.Proto
import Leibrix.Gregorian
import Leibrix.GoTime
import Leibrix.EpochGenerator
import Leibrix.Tiling
import Leibrix.TimeSlices
import Leibrix.DimensionProduct
import Leibrix.EpochCover
import Leibrix.AdmitStore
import Leibrix.QuotaRuns
import Leibrix.SaveRace
import Leibrix.StoredEpochs
import Leibrix.Election
import Leibrix.LeaderTerm
import Leibrix.CampaignLoop
import Leibrix.LeaderWrites
import Leibrix.Redirects
import Leibrix.LeadershipLoss
import Leibrix.Reconnect
import Leibrix.FieldCode
import Leibrix.EpochIds
import Leibrix.SortedIds
import Leibrix.SliceEnds
import Leibrix.CalendarBoundaries
import Leibrix.WindowSplit
import Leibrix.RepeatedValues
import Leibrix.GeneratorPanics
import Leibrix.MapRanges
import Leibrix.AdmitRetry
import Leibrix.EndedStreams
import Leibrix.SessionCalls
import Leibrix.SessionAccounting
import Leibrix.OpenSessions
import Leibrix.StreamCalls
import Leibrix.Listeners
import Leibrix.LeaderChannel
import Leibrix.Delivery
import Leibrix.ServingState
import Leibrix.HealthFollows
import Leibrix.Shutdown
import Leibrix.ClusterState
import Leibrix.LeaseStore
import Leibrix.Membership
import Leibrix.Outbox
import Leibrix.Tasks
import Leibrix.StateHandlers
import Leibrix.StatePairs
import Leibrix.PullStatus
import Leibrix.Dispatcher
import Leibrix.RejectedMessages
import Leibrix.EventQueue
import Leibrix.FencingTokens
import Leibrix.ListenerHub
import Leibrix.HubListeners
import Leibrix.HubMap
import Leibrix.HubShutdown
import Leibrix.ClusterEvents
import Leibrix.StreamLoop
import Leibrix.StreamAnswers
import Leibrix.SharedLease
import Leibrix.RealRevisions
import Leibrix.RenamedRevisions
import Leibrix.NodeServer
import Leibrix.SingleEtcd
import Leibrix.TenantCatalog
import Leibrix.Pushes
import Leibrix.PushDelivery
import Leibrix.MemberView
import Leibrix.Companion
import Leibrix.CatalogOrder
import Leibrix.ConcurrentCalls
import Leibrix.Utc
import Leibrix.Outcome
import Leibrix.Words
import Leibrix.Loops
import Leibrix.GoCalendar
import Leibrix.TimeGrid
import Leibrix.BackwardSlices
import Leibrix.Utf8
import Leibrix.LostRaces
