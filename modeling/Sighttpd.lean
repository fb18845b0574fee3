import Sighttpd.Core.Machine
import Sighttpd.Core.Memory
import Sighttpd.Core.Circular
import Sighttpd.L2Stream.Ringbuffer
import Sighttpd.L2Stream.RingbufferOps
import Sighttpd.L2Stream.Readfd
import Sighttpd.L2Stream.Fanout
import Sighttpd.L2Stream.Stall
import Sighttpd.L2Stream.Queues
import Sighttpd.L2Stream.Sessions
import Sighttpd.L2Stream.OggStdin
import Sighttpd.L2Stream.LiveWriters
import Sighttpd.L2Stream.OggLinks
import Sighttpd.L2Stream.OggChain
import Sighttpd.L2Stream.SessionSteps
import Sighttpd.L2Stream.OggServer
import Sighttpd.L2Stream.OggClients
import Sighttpd.L2Stream.Channel
import Sighttpd.L2Stream.StdinStream
import Sighttpd.L2Stream.ShRecord
import Sighttpd.Core.CString
import Sighttpd.Core.Numeral
import Sighttpd.L1Data.Params
import Sighttpd.L1Data.ParamsParse
import Sighttpd.L1Data.DelimLoop
import Sighttpd.L1Data.Canonicalize
import Sighttpd.L1Data.ParamsPrint
import Sighttpd.L1Data.ParamsStores
import Sighttpd.L1Data.ParamsBuffer
import Sighttpd.L1Data.RoundTrip
import Sighttpd.L1Data.HeaderLines
import Sighttpd.L1Data.ParamsWeight
import Sighttpd.L1Data.HeaderInsert
import Sighttpd.L1Data.StaleHeaders
import Sighttpd.L1Data.FoldedValues
import Sighttpd.Core.SearchTree
import Sighttpd.Core.OrderedTree
import Sighttpd.Core.LinkedTree
import Sighttpd.L1Data.Dictionary
import Sighttpd.L1Data.XTree
import Sighttpd.L1Data.XTreeHistory
import Sighttpd.L1Data.XTreeWalk
import Sighttpd.L1Data.XTreeFree
import Sighttpd.Core.LinkedList
import Sighttpd.L1Data.Lists
import Sighttpd.L1Data.ListOps
import Sighttpd.L1Data.ListHistory
import Sighttpd.L1Data.ParamsMap
import Sighttpd.L1Data.ParamsNodes
import Sighttpd.L1Data.ParamsRemove
import Sighttpd.Core.Ownership
import Sighttpd.L1Data.ParamsHeap
import Sighttpd.L1Data.ParamsLife
import Sighttpd.L1Data.ParamsOwned
import Sighttpd.L3Config.CfgScan
import Sighttpd.L3Config.CfgParse
import Sighttpd.Core.Loop
import Sighttpd.L3Config.CfgEnds
import Sighttpd.L3Config.CfgRead
import Sighttpd.L3Config.CfgScopes
import Sighttpd.L3Config.CfgStatus
import Sighttpd.L3Config.CfgStream
import Sighttpd.L3Config.CfgCuts
import Sighttpd.L3Config.CfgDocument
import Sighttpd.L3Config.CfgChars
import Sighttpd.L3Config.CfgEscapes
import Sighttpd.L3Config.CfgCallers
import Sighttpd.L3Config.CfgQuoted
import Sighttpd.L3Config.CfgKeywords
import Sighttpd.L3Config.CfgReplay
import Sighttpd.L3Config.CfgMeaning
import Sighttpd.L4Http.Reqline
import Sighttpd.L4Http.RequestLine
import Sighttpd.L4Http.RequestFields
import Sighttpd.L4Http.Response
import Sighttpd.L4Http.OneRead
import Sighttpd.L4Http.SplitReads
import Sighttpd.L4Http.ResponseMemory
import Sighttpd.Core.Lines
import Sighttpd.L4Http.Kongou
import Sighttpd.L4Http.KongouOutput
import Sighttpd.L4Http.Respond
import Sighttpd.L4Http.Replies
import Sighttpd.L4Http.Dispatch
import Sighttpd.L4Http.Encoders
import Sighttpd.L4Http.KongouPage
import Sighttpd.L4Http.AccessLog
import Sighttpd.L5Server.Server
import Sighttpd.L5Server.Connections
import Sighttpd.L5Server.LivePages
import Sighttpd.L5Server.LiveSites
