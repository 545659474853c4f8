import Arne.Lib.Bisect
import Arne.Lib.KWayMerge
import Arne.Lib.MachineWord
import Arne.Lib.OrdMap
import Arne.Lib.SortedLog
import Arne.Lib.Stretch
import Arne.Message.Filter
import Arne.Message.Json
import Arne.Message.Types
import Arne.Timeline.Accounting
import Arne.Timeline.Advance
import Arne.Timeline.Budget
import Arne.Timeline.Chunk
import Arne.Timeline.Engine
import Arne.Timeline.Exhausted
import Arne.Timeline.Following
import Arne.Timeline.Merge
import Arne.Timeline.Nearest
import Arne.Timeline.Page
import Arne.Timeline.PageOrder
import Arne.Timeline.Paging
import Arne.Timeline.Request
import Arne.Timeline.Room
import Arne.Timeline.Scan
import Arne.Timeline.Untrusted
import Arne.Timeline.Window
import Arne.Client.Anchored
import Arne.Client.CaughtUp
import Arne.Client.LookupOrder
import Arne.Client.FilterAgreement
import Arne.Client.FilterQuery
import Arne.Client.Landing
import Arne.Client.LiveTopic
import Arne.Client.Reach
import Arne.Client.Request
import Arne.Client.Session
import Arne.Client.Sliding
import Arne.Client.Store
import Arne.Client.StoreSpec
import Arne.Client.Trim
import Arne.Client.Intact
import Arne.Client.Preview
import Arne.Client.Pause
import Arne.Client.Handlers
import Arne.Client.Moves
import Arne.Client.Inspection
import Arne.Client.Tail
import Arne.Client.Resume
import Arne.Cluster.GroupLag
import Arne.Cluster.Groups
import Arne.Cluster.Consumers
import Arne.Cluster.AsOf
import Arne.Lib.Interleaving
import Arne.Cluster.ReadThrough
import Arne.Cluster.Refresh
import Arne.Cluster.FailedRefresh
import Arne.Cluster.Sampler
import Arne.Cluster.CallStats
import Arne.Lib.Bytes
import Arne.Cluster.Roster
import Arne.Message.PathText
import Arne.Client.FieldPaths
import Arne.Client.Proposals
import Arne.Message.Equality
import Arne.Message.Matching
import Arne.Client.FilterProposals
import Arne.Cluster.Assignment
import Arne.Timeline.Fetch
import Arne.Timeline.AnchorStart
import Arne.Cluster.Watermarks
import Arne.Client.DisplayOrder
import Arne.Lib.Varint
import Arne.Message.MessageIndexes
import Arne.Lib.Base64
import Arne.Message.Payload
import Arne.Cluster.Rates
import Arne.Settings.Interpolation
import Arne.Lib.DoubleQuoted
import Arne.Settings.Load
import Arne.Client.PageStream
import Arne.Client.AutoPaging
import Arne.Message.TailPoll
import Arne.Lib.Machine
import Arne.Lib.Channel
import Arne.Client.TailPipeline
import Arne.Client.TailEnd
import Arne.Cluster.SelfHeal
import Arne.Message.SchemaCache
import Arne.Lib.Decimal
import Arne.Lib.JsonText
import Arne.Timeline.CursorText
import Arne.Client.CursorText
import Arne.Lib.EventStream
import Arne.Message.MessageJson
import Arne.Client.EventWire
import Arne.Lib.FormUrlencoded
import Arne.Timeline.QueryParams
import Arne.Client.PageQuery
import Arne.Cluster.FlightRest
import Arne.Cluster.FlightRefinement
import Arne.Client.WindowOverWire
