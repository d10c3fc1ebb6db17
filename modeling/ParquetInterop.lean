import ParquetInterop.Lib.Runs
import ParquetInterop.Lib.Parking
import ParquetInterop.Lib.Jobs
import ParquetInterop.WriteQueue
import ParquetInterop.QueueSafety
import ParquetInterop.QueueWake
import ParquetInterop.QueueExit
import ParquetInterop.QueueEnd
import ParquetInterop.Pool
import ParquetInterop.PoolSafety
import ParquetInterop.PoolRuns
import ParquetInterop.Lib.Blocks
import ParquetInterop.Lib.Wrapping
import ParquetInterop.Lib.Bits
import ParquetInterop.Lib.Stores
import ParquetInterop.Ffi
import ParquetInterop.Footer
import ParquetInterop.Layout
import ParquetInterop.Native
import ParquetInterop.SymCache
import ParquetInterop.FillCol
import ParquetInterop.Delivered
import ParquetInterop.RawCol
import ParquetInterop.ZeroCopy
import ParquetInterop.Codes
import ParquetInterop.Select
import ParquetInterop.Decode
import ParquetInterop.TaskRows
import ParquetInterop.Read
import ParquetInterop.Landing
import ParquetInterop.Schedule
import ParquetInterop.Window
import ParquetInterop.Pairs
import ParquetInterop.Projection
import ParquetInterop.Scratch
import ParquetInterop.Replace
import ParquetInterop.Writers
import ParquetInterop.Lib.Bytes
import ParquetInterop.Splay
import ParquetInterop.Lib.Trees
import ParquetInterop.Stream
import ParquetInterop.StreamFiles
import ParquetInterop.StreamFrame
import ParquetInterop.StreamReplace
import ParquetInterop.Versions
import ParquetInterop.VersionRuns
import ParquetInterop.RowCounts
import ParquetInterop.Stats
import ParquetInterop.DictPage
import ParquetInterop.PoolReuse
import ParquetInterop.Lib.Cursor
import ParquetInterop.SharedCursor
import ParquetInterop.Lib.FirstSeen
import ParquetInterop.DictUnion
import ParquetInterop.CodeRange
import ParquetInterop.Temporal
import ParquetInterop.GiveUp
import ParquetInterop.PairLaw
import ParquetInterop.Predict
import ParquetInterop.FooterCache
import ParquetInterop.SymMemo
import ParquetInterop.WriteCol
import ParquetInterop.WriteTable
import ParquetInterop.RoundTrip
import ParquetInterop.SymDict
import ParquetInterop.Validity
import ParquetInterop.Lib.Base64
import ParquetInterop.SchemaMeta
import ParquetInterop.StreamRead
import ParquetInterop.Lib.Reading
import ParquetInterop.Lib.Settings
import ParquetInterop.Lib.Sampling
import ParquetInterop.Host
import ParquetInterop.Args
import ParquetInterop.Options
import ParquetInterop.Entry
import ParquetInterop.Lib.Owned
import ParquetInterop.Ownership
import ParquetInterop.MetaDict
import ParquetInterop.Opening
import ParquetInterop.InFlight
import ParquetInterop.Calls
import ParquetInterop.Encodings
import ParquetInterop.MetaTree
