import Httplib.Body.FormDataBody
import Httplib.Body.FormDataDelivery
import Httplib.Body.FormDataHeader
import Httplib.Body.FormDataRoundTrip
import Httplib.Body.FormDataChunked
import Httplib.Body.FileBody
import Httplib.Body.FileRead
import Httplib.Body.AnyBody
import Httplib.Body.AnyBodyWriter
import Httplib.Body.AnyBodyReader
import Httplib.Html.AcceptContent
import Httplib.Html.HttpRanges
import Httplib.Server.Message
import Httplib.Server.Response
import Httplib.Server.ResponseFraming
import Httplib.Lib.Patterns
import Httplib.Lib.PatternOrder
import Httplib.Server.Router
import Httplib.Server.RouterTree
import Httplib.Server.RouterSearch
import Httplib.Server.Routing
import Httplib.Lib.Paths
import Httplib.Server.MountPoint
import Httplib.Server.MountPointConfined
import Httplib.Lib.Machine
import Httplib.Server.HttpTask
import Httplib.Lib.Chunked
import Httplib.Server.AsyncWrite
import Httplib.Lib.Mailbox
import Httplib.Util.ActionQueue
import Httplib.Client.ClientPool
import Httplib.Client.HttpClient
import Httplib.Server.HttpProxyTask
import Httplib.Server.HttpServer
import Httplib.Server.FileContent
import Httplib.Html.RangeHeader
import Httplib.Html.RangeGrammar
import Httplib.Server.RouterParams
import Httplib.Server.Wildcard
import Httplib.Server.FailedRegistration
import Httplib.Lib.Objects
import Httplib.Server.SetHttpHandler
import Httplib.Util.UrlDecode
import Httplib.Html.QueryDecode
import Httplib.Body.BodyWriters
import Httplib.Server.WebsocketConn
import Httplib.Lib.StreamFilter
import Httplib.Body.CompressorFactory
import Httplib.Body.CodecErrors
import Httplib.Html.ParameterGrammar
import Httplib.Body.FormDataBoundary
import Httplib.Server.EncodingNegotiation
import Httplib.Client.ChunkHandler
import Httplib.Body.FormDataNames
import Httplib.Util.PercentDecode
import Httplib.Server.WebsocketRouting
import Httplib.Util.Split
import Httplib.Lib.Outbox
import Httplib.Stream.WebsocketStream
import Httplib.Server.WebsocketSession
import Httplib.Client.WsClient
import Httplib.Html.HttpDate
import Httplib.Server.Revalidation
import Httplib.Body.AnyBodyRoundTrip
import Httplib.Server.ResponseReceived
import Httplib.Client.AsyncGet
import Httplib.Server.HttpExchange
import Httplib.Client.HttpClientPool
import Httplib.Server.StaticFile
import Httplib.Client.MakeHttpRequest
import Httplib.Lib.PatternSwap
import Httplib.Server.RegistrationOrder
import Httplib.Lib.Duplex
import Httplib.Stream.WebsocketConversation
import Httplib.Client.HttpConversation
