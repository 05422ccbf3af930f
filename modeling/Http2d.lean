import Http2d.Library.WhileLoop
import Http2d.Library.Transition
import Http2d.Library.Bytes
import Http2d.Library.PairBlock
import Http2d.Library.Occurrences
import Http2d.Library.Lines
import Http2d.Library.FileTree
import Http2d.Library.Framing
import Http2d.Library.Lifetime
import Http2d.Library.Resources
import Http2d.Library.RoundRobin
import Http2d.Library.IntrusiveList
import Http2d.Library.CallGraph
import Http2d.Library.Arc
import Http2d.Library.AvlTree
import Http2d.Library.SearchTree
import Http2d.Library.StableMerge
import Http2d.Library.Zlib
import Http2d.Library.ZlibStored
import Http2d.Library.CyclicCode
import Http2d.Library.BlockHash
import Http2d.Common
import Http2d.Strings
import Http2d.Buffer
import Http2d.BufferOps
import Http2d.BufferRefinement
import Http2d.BufferEscape
import Http2d.EscapeSafety
import Http2d.HtmlEscape
import Http2d.BufferFailure
import Http2d.BufferLimits
import Http2d.NumberText
import Http2d.SizeText
import Http2d.FormatLength
import Http2d.BufferMultiply
import Http2d.BufferSlice
import Http2d.BufferOrder
import Http2d.Utf8Length
import Http2d.CommaMarks
import Http2d.RemoveDups
import Http2d.HexCoding
import Http2d.StringReplace
import Http2d.StringSubstitute
import Http2d.CaseSearch
import Http2d.AccountRecords
import Http2d.LineSplit
import Http2d.Listener
import Http2d.UriRoundTrip
import Http2d.PathShort
import Http2d.PathComponents
import Http2d.PathNormal
import Http2d.PathInfo
import Http2d.MkdirPath
import Http2d.RmRf
import Http2d.RmRfSafety
import Http2d.RmRfRuns
import Http2d.RmRfClears
import Http2d.Base64
import Http2d.Base64Decoding
import Http2d.Iovec
import Http2d.Access
import Http2d.AccessFailure
import Http2d.AccessMatching
import Http2d.AccessSpecs
import Http2d.Cache
import Http2d.CacheVictim
import Http2d.CacheReferences
import Http2d.CacheCapacity
import Http2d.CacheArc
import Http2d.CacheFailure
import Http2d.IoCache
import Http2d.IoCacheGhosts
import Http2d.IoCacheDelivery
import Http2d.IoCacheSizes
import Http2d.IoCacheMappings
import Http2d.IoCacheMapped
import Http2d.AvlGeneric
import Http2d.AvlRepresentation
import Http2d.AvlContext
import Http2d.AvlSearch
import Http2d.AvlInsertion
import Http2d.AvlDeletion
import Http2d.AvlMap
import Http2d.AvlInvariant
import Http2d.AvlPath
import Http2d.AvlRotation
import Http2d.AvlCheck
import Http2d.AvlTraversal
import Http2d.AvlBuffer
import Http2d.AvlWhile
import Http2d.QueryString
import Http2d.ConfigNode
import Http2d.ConfigPaths
import Http2d.ConfigAdds
import Http2d.ConfigNumbers
import Http2d.CacheConfigure
import Http2d.ConfigSort
import Http2d.SortOrder
import Http2d.SortDecisions
import Http2d.ServerConfig
import Http2d.ConfigReader
import Http2d.ConfigScan
import Http2d.Library.NestedCalls
import Http2d.ConfigInclude
import Http2d.ConfigNesting
import Http2d.ConfigSanity
import Http2d.ConfigLevels
import Http2d.ConfigText
import Http2d.ConfigTree
import Http2d.ConfigList
import Http2d.HeaderDeletion
import Http2d.PluginLoader
import Http2d.Header
import Http2d.HeaderEnd
import Http2d.NameValue
import Http2d.NameValueBounds
import Http2d.RequestSpdy
import Http2d.NameValueRoundTrip
import Http2d.Spdy
import Http2d.SpdyConnection
import Http2d.SpdyTermination
import Http2d.SpdyServer
import Http2d.SpdyFields
import Http2d.SpdyFraming
import Http2d.SpdyFrame
import Http2d.SpdyReply
import Http2d.SpdyStreams
import Http2d.SpdyOutput
import Http2d.SpdyZlib
import Http2d.RequestList
import Http2d.Thread
import Http2d.ConnectionLifetime
import Http2d.ThreadLists
import Http2d.ListOperations
import Http2d.ListSort
import Http2d.ConfigRelease
import Http2d.ConnectionWrite
import Http2d.SpdyShutdown
import Http2d.SpdyService
import Http2d.TraceFilter
import Http2d.AddressList
import Http2d.ResolvCache
import Http2d.Crc32
import Http2d.Md5
import Http2d.Sha1
import Http2d.BufferDigest
import Http2d.TextEdits
import Http2d.BufferInput
