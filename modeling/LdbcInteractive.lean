import LdbcInteractive.Loops
import LdbcInteractive.GraphDistance
import LdbcInteractive.EdgeTables
import LdbcInteractive.FirstVisits
import LdbcInteractive.PriorityQueues
import LdbcInteractive.PartialLoops
import LdbcInteractive.Graph
import LdbcInteractive.Common
import LdbcInteractive.FriendCircles
import LdbcInteractive.IC13
import LdbcInteractive.IC14
import LdbcInteractive.IC14Search
import LdbcInteractive.IC14Paths
import LdbcInteractive.IC14Scores
import LdbcInteractive.IC14Rows
import LdbcInteractive.SamePerson
import LdbcInteractive.PathQueries
import LdbcInteractive.TieEvictions
import LdbcInteractive.IC8
import LdbcInteractive.IS7
import LdbcInteractive.Replies
import LdbcInteractive.Messages
import LdbcInteractive.IC2
import LdbcInteractive.IC9
import LdbcInteractive.WidenedCircle
import LdbcInteractive.IC1
import LdbcInteractive.IC12
import LdbcInteractive.IC4
import LdbcInteractive.MutualFriends
import LdbcInteractive.Selections
import LdbcInteractive.IS2
import LdbcInteractive.IC11
import LdbcInteractive.IC7
import LdbcInteractive.IC3
import LdbcInteractive.IC5
import LdbcInteractive.IC6
import LdbcInteractive.Chains
import LdbcInteractive.RootPosts
import LdbcInteractive.LinkLoops
import LdbcInteractive.DateWindows
import LdbcInteractive.CachedTops
import LdbcInteractive.IC10
import LdbcInteractive.MissingLinks
import LdbcInteractive.IC14Peeling
import LdbcInteractive.Relabellings
import LdbcInteractive.Renumberings
import LdbcInteractive.LoadOrders
import LdbcInteractive.LoadOrderTags
import LdbcInteractive.LoadOrderFriends
import LdbcInteractive.PathRows
import LdbcInteractive.PathSymmetry
import LdbcInteractive.EdgeInsertion
import LdbcInteractive.Hops
import LdbcInteractive.LoadOrderPaths
import LdbcInteractive.CoarseOrders
import LdbcInteractive.LoadOrderLatest
import LdbcInteractive.LoadOrderShortReads
import LdbcInteractive.Friendships
import LdbcInteractive.RowDistances
import LdbcInteractive.MessageLookups
import LdbcInteractive.ThreadForums
import LdbcInteractive.Cutoffs
import LdbcInteractive.NarrowedWindows
import LdbcInteractive.NewMessages
import LdbcInteractive.MutualRows
import LdbcInteractive.WidenedClasses
