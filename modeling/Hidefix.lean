import Hidefix.Foundation.Checked
import Hidefix.Foundation.Signed
import Hidefix.Foundation.Faults
import Hidefix.Foundation.MixedRadix
import Hidefix.Foundation.Blocks
import Hidefix.Foundation.Buffer
import Hidefix.Foundation.Lru
import Hidefix.Foundation.Bounded
import Hidefix.Foundation.Sort
import Hidefix.Foundation.Separated
import Hidefix.Foundation.Transition
import Hidefix.Extent
import Hidefix.Filters.ByteOrder
import Hidefix.Filters.Gzip
import Hidefix.Filters.Shuffle
import Hidefix.Filters.Transpose
import Hidefix.Filters.Xdr
import Hidefix.Filters.Endianness
import Hidefix.Filters.Widening
import Hidefix.Idx.Chunk
import Hidefix.Idx.Dataset
import Hidefix.Idx.Grid
import Hidefix.Idx.WellFormed
import Hidefix.Idx.Positions
import Hidefix.Idx.Valid
import Hidefix.Idx.Lookup
import Hidefix.Idx.Slicer
import Hidefix.Idx.Items
import Hidefix.Idx.Selected
import Hidefix.Idx.Serde
import Hidefix.Idx.Accepted
import Hidefix.Idx.Index
import Hidefix.Slices.Geometry
import Hidefix.Slices.Runs
import Hidefix.Slices.Folding
import Hidefix.Slices.Loop
import Hidefix.Slices.Step
import Hidefix.Slices.Selection
import Hidefix.Slices.Exact
import Hidefix.Slices.Counter
import Hidefix.Slices.Coordinates
import Hidefix.Slices.Maximal
import Hidefix.Slices.Lengths
import Hidefix.Reader.Chunk
import Hidefix.Reader.Cache
import Hidefix.Reader.Direct
import Hidefix.Reader.Stream
import Hidefix.Reader.Uncached
import Hidefix.Reader.Pieces
import Hidefix.Reader.Agreement
import Hidefix.Reader.Segments
import Hidefix.Reader.Covered
import Hidefix.Reader.Values
import Hidefix.Reader.Reports
import Hidefix.Reader.Rejects
import Hidefix.Reader.Groups
import Hidefix.Reader.Destination
import Hidefix.Reader.Pipeline
import Hidefix.Reader.Serialized
import Hidefix.Reader.Capacity
import Hidefix.Python.Index
import Hidefix.Python.Slices
import Hidefix.Python.Getitem
import Hidefix.Foundation.NdArray
import Hidefix.Reader.Complete
import Hidefix.Slices.Aligned
import Hidefix.Reader.Arrays
import Hidefix.Reader.Partly
import Hidefix.Reader.Delivered
import Hidefix.Reader.Damaged
import Hidefix.Python.Array
import Hidefix.Reader.Streamed
import Hidefix.Idx.Indexed
import Hidefix.Reader.Stored
import Hidefix.Foundation.Interleaving
import Hidefix.Reader.Threads
import Hidefix.Reader.Interleaved
import Hidefix.Foundation.Keyed
import Hidefix.Idx.File
import Hidefix.Idx.Written
import Hidefix.Reader.Opened
import Hidefix.Python.Opened
import Hidefix.Reader.Sliced
