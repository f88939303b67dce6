import KcnTools.Lib.Buffer
import KcnTools.Lib.Segment
import KcnTools.Cache.CacheCore
import KcnTools.Cache.CacheFragments
import KcnTools.Cache.CacheInvariant
import KcnTools.Cache.CacheOperations
import KcnTools.Cache.CacheDefragment
import KcnTools.Lib.Run
import KcnTools.Cache.CacheRuns
import KcnTools.Cache.CacheContents
import KcnTools.Protocol.ProtocolTable
import KcnTools.Protocol.UriParse
import KcnTools.Protocol.UriNormalize
import KcnTools.Protocol.PathNormal
import KcnTools.Lib.Path
import KcnTools.Protocol.PathClean
import KcnTools.Bittorrent.Paths
import KcnTools.Util.Bitfield
import KcnTools.Lib.BigEndian
import KcnTools.Lib.Framing
import KcnTools.Bittorrent.Common
import KcnTools.Bittorrent.PieceFiles
import KcnTools.Bittorrent.PieceSelect
import KcnTools.Bittorrent.PieceCache
import KcnTools.Bittorrent.PeerWire
import KcnTools.Bittorrent.Torrent
import KcnTools.Bittorrent.PeerCodec
import KcnTools.Bittorrent.PeerFraming
import KcnTools.Lib.Modify
import KcnTools.Bittorrent.Transitions
import KcnTools.Bittorrent.EventSteps
import KcnTools.Bittorrent.RemoteView
import KcnTools.Bittorrent.OfferedRequests
import KcnTools.Bittorrent.ServedRequests
import KcnTools.Bittorrent.PieceTable
import KcnTools.Bittorrent.PieceCounters
import KcnTools.Lib.Counting
import KcnTools.Lib.Pool
import KcnTools.Lib.SparseFile
import KcnTools.Bittorrent.PieceStorage
import KcnTools.Bittorrent.PieceRoundTrip
import KcnTools.Bittorrent.SavedPieces
import KcnTools.Bittorrent.RarityIndex
import KcnTools.Bittorrent.RarityRuns
import KcnTools.Bittorrent.PieceBlocks
import KcnTools.Bittorrent.BlockPool
import KcnTools.Bittorrent.BlockRuns
import KcnTools.Bittorrent.LeftBytes
import KcnTools.Bittorrent.LeftRuns
import KcnTools.Bittorrent.PeerHandshake
import KcnTools.Util.Scanner
import KcnTools.Bittorrent.Bencoding
import KcnTools.Lib.Trie
import KcnTools.Util.Fastfind
import KcnTools.Util.FastfindSearch
import KcnTools.Util.FastfindBuild
import KcnTools.Util.FastfindKeys
import KcnTools.Util.FastfindCompress
import KcnTools.Util.FastfindLookup
import KcnTools.Util.Hash
import KcnTools.Protocol.UriCache
import KcnTools.Protocol.UriCacheRuns
import KcnTools.Lib.Decimal
import KcnTools.Cookies.CookieDomain
import KcnTools.Cookies.CookieStore
import KcnTools.Cookies.CookieOrigin
import KcnTools.Cookies.CookieRuns
import KcnTools.Cookies.CookieFile
import KcnTools.Cookies.CookieServers
import KcnTools.Cookies.CookieRoundTrip
import KcnTools.Intl.EntityCache
import KcnTools.Intl.EntityCacheRuns
import KcnTools.Http.ChunkedRuns
import KcnTools.Terminal.KeyboardRuns
import KcnTools.Ftp.FtpDecode
import KcnTools.W3m.Istream
import KcnTools.W3m.IstreamRuns
import KcnTools.W3m.Str
import KcnTools.W3m.StrSpec
import KcnTools.W3m.StrRuns
import KcnTools.W3m.CertIdent
import KcnTools.Lib.Transducer
import KcnTools.Libwc.CharacterSet
import KcnTools.Libwc.Renumber
import KcnTools.Libwc.Wtf
import KcnTools.Libwc.Hz
import KcnTools.Libwc.Ucs
import KcnTools.Libwc.Utf7
import KcnTools.Lib.Sextets
import KcnTools.Libwc.Utf7Register
import KcnTools.Libwc.Utf7Runs
import KcnTools.Libwc.UcsOutput
import KcnTools.Libwc.Utf7Encode
import KcnTools.Libwc.Utf7EncodeRuns
import KcnTools.Libwc.WtfUnits
import KcnTools.Libwc.RenumberInverse
import KcnTools.Libwc.WtfRoundTrip
import KcnTools.W3m.Cookie
import KcnTools.W3m.CookieExpiry
import KcnTools.W3m.CookieScope
import KcnTools.W3m.MimeDecode
import KcnTools.W3m.EncodedStream
import KcnTools.W3m.LineInput
import KcnTools.W3m.LineText
import KcnTools.W3m.LineEdits
import KcnTools.W3m.LineRuns
import KcnTools.W3m.LineSession
import KcnTools.Dom.DomStack
import KcnTools.Dom.SgmlParser
import KcnTools.Dom.SgmlParserRuns
import KcnTools.Bittorrent.PartialDownload
import KcnTools.Bittorrent.BlockSplit
import KcnTools.Bittorrent.RequestChoice
import KcnTools.Bittorrent.PeerSort
import KcnTools.Bittorrent.BencodedText
import KcnTools.Bittorrent.PeerPool
import KcnTools.Bittorrent.Metafile
import KcnTools.Bittorrent.MetafileGeometry
import KcnTools.Bittorrent.MetafileText
import KcnTools.Bittorrent.InfoHash
import KcnTools.Bittorrent.UnknownEntries
import KcnTools.Lib.ShellQuoting
import KcnTools.W3m.Mailcap
import KcnTools.W3m.MailcapTemplate
import KcnTools.W3m.MailcapText
import KcnTools.W3m.MailcapShell
import KcnTools.Lib.Gregorian
import KcnTools.Protocol.Date
import KcnTools.Protocol.DateForms
import KcnTools.Protocol.DateAgreement
import KcnTools.Util.Base64
import KcnTools.Protocol.UriEscape
import KcnTools.Cookies.HeaderParam
import KcnTools.Cache.GarbageCollection
import KcnTools.Cache.GarbageFitting
import KcnTools.Http.ChunkedTrace
import KcnTools.Protocol.UriParts
import KcnTools.Protocol.UriLetterCase
import KcnTools.Intl.NumericEntity
import KcnTools.Html.TableWidths
import KcnTools.Html.ColumnGuarantees
import KcnTools.Html.ColumnStretching
import KcnTools.Intl.ConvertString
import KcnTools.Intl.HtmlEscape
import KcnTools.Intl.TranslationTable
import KcnTools.Intl.TranslationTrie
import KcnTools.Intl.TranslationText
import KcnTools.Network.ConnectionQueue
import KcnTools.Network.QueueSteps
import KcnTools.Network.QueueProgress
import KcnTools.Network.QueueRuns
import KcnTools.Config.OptionRoundTrip
import KcnTools.Viewer.SearchIndex
import KcnTools.Viewer.SearchWindow
import KcnTools.Lib.CheckedRead
import KcnTools.Ftp.LineParse
import KcnTools.Ftp.LineReads
import KcnTools.Ftp.LineColumns
import KcnTools.Ftp.LineBounds
import KcnTools.Ftp.LineDates
import KcnTools.W3m.Anchor
import KcnTools.W3m.AnchorLookup
import KcnTools.W3m.AnchorShift
import KcnTools.Lib.MergeRanks
import KcnTools.W3m.AnchorRenumbering
import KcnTools.W3m.AnchorRenumberingRuns
import KcnTools.Libwc.TagTable
import KcnTools.Libwc.Iso2022Escape
import KcnTools.Libwc.Gb18030
import KcnTools.Libwc.Gb18030RoundTrip
import KcnTools.W3m.CleanupName
import KcnTools.W3m.Quoting
import KcnTools.Dom.NodeMap
import KcnTools.Dom.AttributeSelector
import KcnTools.Bfu.ListboxMoves
import KcnTools.Viewer.Textarea
import KcnTools.Lib.TreeWalk
import KcnTools.Dom.WalkNodes
import KcnTools.W3m.SpanTable
import KcnTools.W3m.TableFeed
import KcnTools.W3m.TableSizes
import KcnTools.Main.Timers
import KcnTools.Ping.Checksum
import KcnTools.Ping.Answers
