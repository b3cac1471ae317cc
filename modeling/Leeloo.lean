import Leeloo.Lib.HalfOpen
import Leeloo.Lib.Word
import Leeloo.Lib.Block
import Leeloo.Lib.Dichotomy
import Leeloo.Lib.UnstableSort
import Leeloo.Lib.QuadraticResidue
import Leeloo.Lib.RangePerm
import Leeloo.Lib.Text
import Leeloo.Lib.CString
import Leeloo.Interval
import Leeloo.ListIntervals
import Leeloo.AggregateTheorems
import Leeloo.AggregateRuns
import Leeloo.Rank
import Leeloo.IndexCache
import Leeloo.Contains
import Leeloo.MaxPrefix
import Leeloo.MaxPrefixKeeps
import Leeloo.Values
import Leeloo.IpListIntervals
import Leeloo.IpsParser
import Leeloo.PrimeHelpers
import Leeloo.Uni
import Leeloo.UniSteps
import Leeloo.Lib.Sse
import Leeloo.Lib.PowerMap
import Leeloo.MathHelpers
import Leeloo.UprngU32
import Leeloo.UprngInit
import Leeloo.UniSse
import Leeloo.RandomSets
import Leeloo.ValueIterator
import Leeloo.RandomPromise
import Leeloo.RandomPromiseResume
import Leeloo.ListIntervalsRandom
import Leeloo.IpsParserText
import Leeloo.IpsParserBranches
import Leeloo.BlockRange
import Leeloo.Address
import Leeloo.Entry
import Leeloo.Rejection
import Leeloo.ParserBounds
import Leeloo.Padding
import Leeloo.Display
import Leeloo.Lib.Bytes
import Leeloo.Stream
import Leeloo.IpRuns
import Leeloo.FileDescriptor
import Leeloo.Lib.Sweep
import Leeloo.ListIntervalsProperties
import Leeloo.PropertySweep
import Leeloo.PropertyOf
import Leeloo.PropertyExact
import Leeloo.PropertyRuns
import Leeloo.PropertyNull
import Leeloo.AttachProperty
import Leeloo.Enumeration
import Leeloo.ListStore
import Leeloo.RandomChunks
import Leeloo.Lib.BitChunks
import Leeloo.BitField
import Leeloo.BitReference
import Leeloo.PortListIntervals
import Leeloo.Lib.RandomShuffle
import Leeloo.Lib.BitMoves
import Leeloo.BitsPermutation
import Leeloo.Lib.IntegerType
import Leeloo.IntegerCast
import Leeloo.Lib.SharedCounter
import Leeloo.UniThreads
import Leeloo.Lib.OwnedHeap
import Leeloo.BitFieldMemory
import Leeloo.SortPermute
import Leeloo.PropertiesPacked
import Leeloo.ParserLanguage
import Leeloo.IpSessions
import Leeloo.IpRangesRand
import Leeloo.AggregateTool
import Leeloo.Lib.FileSystem
import Leeloo.FileStore
import Leeloo.PropertySessions
import Leeloo.Lib.AckQueue
import Leeloo.PromiseSessions
