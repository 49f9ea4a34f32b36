import Gss.Core.Machine
import Gss.Core.Tokens
import Gss.Core.Heap
import Gss.Core.Multicast
import Gss.Core.Path
import Gss.Containers.List
import Gss.Containers.ListRuns
import Gss.Containers.Conservation
import Gss.Server.Json
import Gss.Server.Task
import Gss.Server.Scheduler
import Gss.Server.Monitor
import Gss.Server.AdminReport
import Gss.Server.HttpSession
import Gss.Server.Files
import Gss.Server.WriteQueue
import Gss.Server.Sessions
import Gss.Server.SessionTable
import Gss.Server.Broadcast
import Gss.Server.TargetedSend
import Gss.Server.Identity
import Gss.Server.Main
import Gss.Server.Posts
import Gss.Server.InputErrors
import Gss.Core.Trie
import Gss.Router.ChildIdxVector
import Gss.Router.SegmentTemplate
import Gss.Router.Pool
import Gss.Router.Routes
import Gss.Router.Find
import Gss.Router.Search
import Gss.Router.TryMatch
import Gss.Router.Lookup
import Gss.Router.Overflow
import Gss.Router.Returns
import Gss.Router.Underflow
import Gss.Router.DotSegments
import Gss.Router.Matches
import Gss.Server.Connections
import Gss.Server.ConnectionRuns
