import PingServer.Ds.HashCounters
import PingServer.Ds.HashInsertion
import PingServer.Ds.IdCreate
import PingServer.Ds.ListRefinement
import PingServer.Ds.PrimeWords
import PingServer.Ds.StrAppend
import PingServer.Ds.StrSafety
import PingServer.Net.Accounting
import PingServer.Net.Batch
import PingServer.Net.CloseTerminates
import PingServer.Net.Closing
import PingServer.Net.ContextSafety
import PingServer.Net.Exhaustion
import PingServer.Net.FileSending
import PingServer.Net.IdleTimeout
import PingServer.Net.ParserContract
import PingServer.Net.ResetAfter
import PingServer.Net.Resuming
import PingServer.Net.Rollback
import PingServer.Parser.ChunkedPieces
import PingServer.Parser.Service
import PingServer.Protocol.Check
import PingServer.Protocol.Independence
import PingServer.Protocol.SafePath
import PingServer.Route.CacheRuns
import PingServer.Route.ContentLength
import PingServer.Route.InFlight
import PingServer.Route.QueryString
import PingServer.Route.StaticFiles
