import LiburingServer.CacheHistory
import LiburingServer.CacheLru
import LiburingServer.CacheLocks
import LiburingServer.CacheLeases
import LiburingServer.WsReassembly
import LiburingServer.TcpStreams
import LiburingServer.TcpReceives
import LiburingServer.TcpSlots
import LiburingServer.WebProtocols
import LiburingServer.WebPaths
import LiburingServer.WebBroadcasts
import LiburingServer.WebCloses
import LiburingServer.WebAccepts
import LiburingServer.Messages
import LiburingServer.CentralBroadcasts
import LiburingServer.CentralOrder
import LiburingServer.CentralRecycling
import LiburingServer.WebLeases
import LiburingServer.WebLocks
import LiburingServer.Lib.RecordPool
import LiburingServer.TcpCallbacks
import LiburingServer.WebSockets
import LiburingServer.WebDescriptors
import LiburingServer.WebResponses
import LiburingServer.WebOutstanding
import LiburingServer.WebClosing
import LiburingServer.TcpHandshakes
import LiburingServer.TcpShutdowns
import LiburingServer.WsPending
import LiburingServer.WsFragments
import LiburingServer.ConfigParsing
import LiburingServer.HttpMethods
import LiburingServer.HttpParsing
import LiburingServer.HttpPaths
import LiburingServer.StoreLifetimes
import LiburingServer.WsReplies
import LiburingServer.WebFailures
import LiburingServer.WebDeliveries
import LiburingServer.WebRequests
import LiburingServer.CentralRequests
import LiburingServer.TcpSessions
import LiburingServer.WebStanding
import LiburingServer.CentralStanding
import LiburingServer.WebOutputs
import LiburingServer.WebHandshakes
import LiburingServer.CacheRecency
import LiburingServer.WebReading
import LiburingServer.WebIsolation
import LiburingServer.WebAnswers
import LiburingServer.WebServing
