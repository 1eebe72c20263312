import Tubekit.Lib.Memory
import Tubekit.Lib.ProtoWire
import Tubekit.Lib.WireFields
import Tubekit.Lib.Transition
import Tubekit.Lib.Lending
import Tubekit.Lib.Monitor
import Tubekit.Lib.BinaryHeap
import Tubekit.Lib.HeapOrder
import Tubekit.Lib.Scan
import Tubekit.Lib.Cursor
import Tubekit.Lib.Dialogue
import Tubekit.Lib.Machine
import Tubekit.Lib.TextLines
import Tubekit.Lib.OrderedMap
import Tubekit.Lib.LexicalPath
import Tubekit.Lib.PercentCoding
import Tubekit.Lib.Radix
import Tubekit.Lib.BlockStream
import Tubekit.Lib.SecureHash
import Tubekit.Buffer.Model
import Tubekit.Buffer.Refinement
import Tubekit.Buffer.Runs
import Tubekit.Buffer.Agreement
import Tubekit.Buffer.Admission
import Tubekit.Http.Parser
import Tubekit.Http.ParserState
import Tubekit.Http.Execute
import Tubekit.Http.Assertions
import Tubekit.Http.Recording
import Tubekit.Http.Instance
import Tubekit.Http.Bytes
import Tubekit.Http.Pieces
import Tubekit.Http.UpgradeRequest
import Tubekit.Http.LineParser
import Tubekit.Http.Target
import Tubekit.Connection.Registry
import Tubekit.Connection.Model
import Tubekit.Connection.Transfer
import Tubekit.Connection.SendPath
import Tubekit.Connection.Pipeline
import Tubekit.Connection.RecvPath
import Tubekit.Connection.SocketIo
import Tubekit.App.WebsocketApp
import Tubekit.App.WebsocketFraming
import Tubekit.App.WebsocketProgress
import Tubekit.App.Players
import Tubekit.App.StreamApp
import Tubekit.App.StreamFraming
import Tubekit.App.StreamProgress
import Tubekit.Thread.Dispatch
import Tubekit.Thread.Coalescing
import Tubekit.Thread.TaskCustody
import Tubekit.Thread.WorkerPool
import Tubekit.Thread.Shutdown
import Tubekit.Thread.ShutdownCustody
import Tubekit.Task.HttpTask
import Tubekit.Task.StreamTask
import Tubekit.Task.WebsocketTask
import Tubekit.Task.Segmentation
import Tubekit.Task.Handshake
import Tubekit.Task.EndpointAgreement
import Tubekit.Task.HttpAgreement
import Tubekit.Task.Reuse
import Tubekit.Task.Response
import Tubekit.Task.WebsocketLife
import Tubekit.Task.Upgrade
import Tubekit.Task.HandshakeMeaning
import Tubekit.Task.HttpUpgrade
import Tubekit.Utility.ObjectPool
import Tubekit.Sql.Pool
import Tubekit.Utility.Url
import Tubekit.Utility.UrlCoding
import Tubekit.Utility.Sha1
import Tubekit.Utility.Sha1Compression
import Tubekit.Utility.Sha1Stream
import Tubekit.Utility.Base64
import Tubekit.Utility.Base64Coding
import Tubekit.Utility.Base64RoundTrip
import Tubekit.Task.AcceptKey
import Tubekit.App.HttpApp
import Tubekit.App.DirectoryListing
import Tubekit.Socket.Ownership
import Tubekit.Socket.Conservation
import Tubekit.Socket.EventPoller
import Tubekit.Socket.InterestSet
import Tubekit.Socket.EventLoop
import Tubekit.Socket.Watch
import Tubekit.Socket.Callers
import Tubekit.Socket.Unsent
import Tubekit.Socket.Removal
import Tubekit.Socket.Gid
import Tubekit.Socket.Wakeup
import Tubekit.Timer.TimerManager
import Tubekit.Timer.Firing
import Tubekit.Timer.Order
import Tubekit.Inifile.Inifile
import Tubekit.Inifile.FixedPoint
import Tubekit.Json.Json
import Tubekit.Json.Parser
import Tubekit.Json.Image
import Tubekit.Json.Program
import Tubekit.Json.Totality
import Tubekit.Json.Grammar
import Tubekit.Json.Acceptance
import Tubekit.Json.RoundTrip
import Tubekit.Json.Injective
import Tubekit.Xml.Document
import Tubekit.Xml.RoundTrip
import Tubekit.Xml.Machine
import Tubekit.Xml.Steps
import Tubekit.Xml.Progress
import Tubekit.Xml.Bounds
import Tubekit.Xml.Children
import Tubekit.Ipc.ShmPool
import Tubekit.Ipc.ShmCalls
import Tubekit.Ipc.ShmRuns
