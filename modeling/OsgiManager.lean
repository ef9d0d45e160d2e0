import OsgiManager.Lib.Bytes
import OsgiManager.Lib.Loop
import OsgiManager.Lib.Run
import OsgiManager.Lib.Regex
import OsgiManager.Lib.PathWalk
import OsgiManager.Lib.PushParser
import OsgiManager.Lib.Lang
import OsgiManager.ESB.Bundle
import OsgiManager.ESB.Listing
import OsgiManager.ESB.StartList
import OsgiManager.ESB.Exec
import OsgiManager.ESB.Console
import OsgiManager.ESB.SystemInfo
import OsgiManager.ESB.Monitor
import OsgiManager.ESB.Freshness
import OsgiManager.ESB.Report
import OsgiManager.ESB.Cycle
import OsgiManager.ESB.Restarts
import OsgiManager.ESB.ConfigFile
import OsgiManager.Http.Messages
import OsgiManager.Http.RequestHandler
import OsgiManager.Http.Confinement
import OsgiManager.Http.RequestParser
import OsgiManager.Http.RequestGrammar
import OsgiManager.Http.RequestParsing
import OsgiManager.Http.Server
import OsgiManager.Http.LifeCycle
import OsgiManager.ESB.StartIds
import OsgiManager.ESB.TableEntries
import OsgiManager.ESB.InfoValues
import OsgiManager.ESB.Normalised
import OsgiManager.Lib.Cells
import OsgiManager.ESB.SetCommands
import OsgiManager.Lib.Substitution
import OsgiManager.ESB.Templates
import OsgiManager.Lib.Commuting
import OsgiManager.ESB.Orders
import OsgiManager.ESB.ListingRoundTrip
import OsgiManager.ESB.InfoLines
import OsgiManager.Lib.CellRule
import OsgiManager.ESB.Expansion
import OsgiManager.Http.UrlEncoding
import OsgiManager.Http.ServedType
import OsgiManager.Lib.Response
import OsgiManager.Http.Framing
import OsgiManager.Lib.Feeding
import OsgiManager.Http.HeaderVector
import OsgiManager.Http.Versions
import OsgiManager.ESB.CommandBuffer
import OsgiManager.ESB.Metrics
import OsgiManager.Http.Isolation
import OsgiManager.Http.Answers
import OsgiManager.Http.Fetch
import OsgiManager.Http.Shutdown
import OsgiManager.Http.Disclosure
import OsgiManager.Lib.Simulation
import OsgiManager.Lib.Json
import OsgiManager.Rapidjson.Reader
import OsgiManager.ESB.Supervisor
import OsgiManager.Rapidjson.Strings
import OsgiManager.Rapidjson.Numbers
import OsgiManager.Rapidjson.Document
import OsgiManager.ESB.Startup
import OsgiManager.ESB.ListLines
import OsgiManager.ESB.InfoCuts
import OsgiManager.Rapidjson.Handler
import OsgiManager.Rapidjson.Writer
import OsgiManager.ESB.ConfigWriting
import OsgiManager.ESB.Program
