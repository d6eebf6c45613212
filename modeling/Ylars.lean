import Ylars.Lib.Transition
import Ylars.Lib.Word
import Ylars.Lib.Split
import Ylars.Lib.Requeue
import Ylars.Fault
import Ylars.Proto
import Ylars.Agent.HostInfo
import Ylars.Agent.LoadBalance
import Ylars.Agent.WellFormed
import Ylars.Agent.Entries
import Ylars.Dns.Announced
import Ylars.Dns.OneConn
import Ylars.Api.Requests
import Ylars.System.ApiCalls
import Ylars.Reporter.ReportWire
import Ylars.System.ReportFlow
import Ylars.System.RouteSync
import Ylars.System.WireSync
import Ylars.System.Provenance
import Ylars.Agent.Eviction
import Ylars.Lib.Block
import Ylars.Reactor.IoBuf
import Ylars.Reactor.BufPool
import Ylars.Reactor.ReactorBuf
import Ylars.Reactor.BufferSafety
import Ylars.Lib.LittleEndian
import Ylars.Lib.Framing
import Ylars.Reactor.Message
import Ylars.Reactor.MessageIO
import Ylars.Reactor.EventLoop
import Ylars.Reactor.TcpConn
import Ylars.Reactor.TcpClient
import Ylars.Reactor.Delivery
import Ylars.Reactor.FrameLimits
import Ylars.Lib.MultiMap
import Ylars.Dns.Router
import Ylars.Dns.ChangePublish
import Ylars.Dns.FailedLoad
import Ylars.Dns.ForcedReload
import Ylars.Dns.RouteDb
import Ylars.Dns.ChangeDrop
import Ylars.Dns.RouteUpdates
import Ylars.Dns.Subscribe
import Ylars.Dns.DnsServer
import Ylars.Dns.MissedUpdate
import Ylars.Agent.RouteLb
import Ylars.Agent.PullProtocol
import Ylars.Lib.Table
import Ylars.Lib.EventFd
import Ylars.Reactor.Duplex
import Ylars.Reactor.Epoll
import Ylars.Reactor.ThreadQueue
import Ylars.Reactor.Dispatch
import Ylars.Reactor.TcpServer
import Ylars.Reactor.ConnRelease
import Ylars.Reactor.PendingOutput
import Ylars.Lib.Retry
import Ylars.Reactor.SocketCalls
import Ylars.Reactor.TransientIO
import Ylars.Reactor.Callbacks
import Ylars.Reactor.ClientLife
import Ylars.Dns.ConnLifeCycle
import Ylars.Dns.Keys
import Ylars.Dns.PushTarget
import Ylars.Lib.Overwrite
import Ylars.Lib.Pipe
import Ylars.Reporter.StoreReport
import Ylars.Lib.Keyed
import Ylars.Lib.Linked
import Ylars.Reactor.LinkedPool
import Ylars.Reactor.PoolAccounting
import Ylars.Reactor.ConnLimit
import Ylars.Lib.RoundRobin
import Ylars.Agent.Fairness
import Ylars.Agent.History
import Ylars.Agent.HostSet
import Ylars.Agent.Recovery
import Ylars.Agent.ReportFrame
import Ylars.Dns.SubscriptionBook
import Ylars.Dns.ChangedMods
import Ylars.Lib.Protobuf
import Ylars.Wire
import Ylars.Lib.Text
import Ylars.Reactor.UdpServer
import Ylars.Reactor.UdpFraming
import Ylars.Agent.AgentServer
import Ylars.Api.YlarsApi
import Ylars.Api.RouteReply
import Ylars.Dns.RowText
import Ylars.Api.HostIdentity
import Ylars.Api.StaleReplies
import Ylars.Lib.Trim
import Ylars.Reactor.ConfigFile
import Ylars.Reactor.ConfigLoad
import Ylars.Lib.Rest
import Ylars.Dns.Workload
import Ylars.System.CatchUp
import Ylars.Dns.RouteHistory
import Ylars.Dns.DbServer
import Ylars.Dns.TableSource
import Ylars.System.Deployment
import Ylars.System.EndToEnd
import Ylars.System.HostSource
import Ylars.System.Fleet
import Ylars.Lib.Printf
import Ylars.Reporter.ReportSql
import Ylars.Reactor.Drain
import Ylars.Dns.AskedFor
import Ylars.System.Requests
import Ylars.System.BytesCatchUp
import Ylars.Reactor.LinkDrain
import Ylars.Reporter.WriterWork
import Ylars.System.ReportsCatchUp
