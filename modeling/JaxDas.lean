import JaxDas.Lib.SortedPairs
import JaxDas.ShapePoly.Syntax
import JaxDas.ShapePoly.Order
import JaxDas.ShapePoly.Print
import JaxDas.ShapePoly.Arith
import JaxDas.ShapePoly.Polynomial
import JaxDas.ShapePoly.Canonical
import JaxDas.ShapePoly.Operations
import JaxDas.ShapePoly.NormalForm
import JaxDas.ShapePoly.TermOrder
import JaxDas.ShapePoly.DivisionStep
import JaxDas.ShapePoly.Division
import JaxDas.Lib.Related
import JaxDas.Lib.PostOrder
import JaxDas.Lib.TreeWalk
import JaxDas.Lib.Columns
import JaxDas.Lib.Fallible
import JaxDas.Lib.IntrusiveList
import JaxDas.Lib.SlotTable
import JaxDas.Mosaic.VectorLayout
import JaxDas.Mosaic.Generalizes
import JaxDas.Lib.Windows
import JaxDas.Lib.Reshape
import JaxDas.Lib.Pairing
import JaxDas.Mosaic.DataBounds
import JaxDas.Mosaic.Join
import JaxDas.MiopenMha.Calls
import JaxDas.Einshape.Transforms
import JaxDas.Einshape.Sizes
import JaxDas.Einshape.Correct
import JaxDas.Threefry.RandomBits
import JaxDas.Threefry.Counters
import JaxDas.Lib.AddRotateXor
import JaxDas.Threefry.Permutation
import JaxDas.ScanTranspose.Rule
import JaxDas.ScanTranspose.Adjoint
import JaxDas.PrettyPrinter.Doc
import JaxDas.PrettyPrinter.Format
import JaxDas.PrettyPrinter.Layout
import JaxDas.PrettyPrinter.Simulates
import JaxDas.PrettyPrinter.Rows
import JaxDas.PrettyPrinter.SourceRanges
import JaxDas.PrettyPrinter.Annotations
import JaxDas.CondSplit.Rule
import JaxDas.CondSplit.Joins
import JaxDas.CondSplit.Correct
import JaxDas.RefIndexing.NDIndexer
import JaxDas.MiopenMha.Strides
import JaxDas.Pytree.Object
import JaxDas.Pytree.TreeDef
import JaxDas.Pytree.Flatten
import JaxDas.Pytree.Unflatten
import JaxDas.Pytree.Counts
import JaxDas.Pytree.KeyPaths
import JaxDas.Pytree.Branches
import JaxDas.Pytree.KeyPathsAgree
import JaxDas.Pytree.UpTo
import JaxDas.Pytree.UpToCorrect
import JaxDas.Pytree.RoundTrip
import JaxDas.Pytree.Produced
import JaxDas.Pytree.Proto
import JaxDas.Pytree.Deserialize
import JaxDas.Pytree.Equality
import JaxDas.WeakrefCache.Keys
import JaxDas.WeakrefCache.Cache
import JaxDas.WeakrefCache.Consistent
import JaxDas.WeakrefCache.Steps
import JaxDas.WeakrefCache.Agreement
import JaxDas.WeakrefCache.Served
import JaxDas.WeakrefCache.Calls
import JaxDas.TiledLayout.Tiling
import JaxDas.TiledLayout.Bijection
import JaxDas.TiledLayout.Canonical
import JaxDas.TiledLayout.Layout
import JaxDas.TiledLayout.Matching
import JaxDas.TiledLayout.Elements
import JaxDas.TiledLayout.CanonicalLayout
import JaxDas.Interner.Interner
import JaxDas.Interner.OneLiveObject
import JaxDas.Lib.Interruptible
import JaxDas.LruCache.Cache
import JaxDas.LruCache.Eviction
import JaxDas.LruCache.Bounded
import JaxDas.Lib.Triangular
import JaxDas.ReentrantHash.Table
import JaxDas.ReentrantHash.Probing
import JaxDas.ReentrantHash.Invariant
import JaxDas.ReentrantHash.Search
import JaxDas.ReentrantHash.Changes
import JaxDas.ReentrantHash.Rehash
import JaxDas.ReentrantHash.Operations
import JaxDas.ReentrantHash.Fuel
import JaxDas.ReentrantHash.Set
import JaxDas.ReentrantHash.Reentrant
import JaxDas.Lib.Masks
import JaxDas.PartialEval.Jaxpr
import JaxDas.PartialEval.Dce
import JaxDas.PartialEval.WellFormed
import JaxDas.PartialEval.DceRules
import JaxDas.PartialEval.DceEffects
import JaxDas.PartialEval.DceEval
import JaxDas.PartialEval.DceScope
import JaxDas.PartialEval.DceCorrect
import JaxDas.PartialEval.ScanDce
import JaxDas.SourceMap.Vlq
import JaxDas.SourceMap.Mappings
import JaxDas.SourceMap.Pieces
import JaxDas.SourceMap.Generator
import JaxDas.Interpret.VectorClock
import JaxDas.Interpret.Ranges
import JaxDas.Interpret.ToRange
import JaxDas.Interpret.SwapBuffer
import JaxDas.Interpret.RaceDetection
import JaxDas.Lib.HappensBefore
import JaxDas.Interpret.SharedMemory
import JaxDas.Interpret.Dma
import JaxDas.Interpret.HappensBefore
import JaxDas.Interpret.NoFalseRaces
import JaxDas.Interpret.Counted
import JaxDas.Interpret.Executed
import JaxDas.Interpret.ExactlyOnce
import JaxDas.Serde.Operation
import JaxDas.Serde.Rules
import JaxDas.Serde.RunSerde
import JaxDas.Serde.RoundTrip
import JaxDas.Lib.RowMajor
import JaxDas.CutlassFa.Request
import JaxDas.CutlassFa.Kernel
import JaxDas.CutlassFa.Honoured
import JaxDas.Lib.Tensor
import JaxDas.CutlassFa.Batcher
import JaxDas.CutlassFa.BatcherCorrect
import JaxDas.Lib.MixedRadix
import JaxDas.Lib.NdArray
import JaxDas.Lib.Occurrences
import JaxDas.Lib.DistinctSets
import JaxDas.Lib.BasicIndexing
import JaxDas.Sharding.Mesh
import JaxDas.Sharding.HloSharding
import JaxDas.Sharding.Devices
import JaxDas.Sharding.Tiles
import JaxDas.Sharding.Indices
import JaxDas.Sharding.DeviceSlices
import JaxDas.Sharding.Placement
import JaxDas.Sharding.ProcessIndex
import JaxDas.Sharding.Distribution
import JaxDas.Sharding.Superdims
import JaxDas.Sharding.Strided
import JaxDas.Sharding.Unflatten
import JaxDas.Sharding.RoundTrip
import JaxDas.Loops.AssociativeScan
import JaxDas.Loops.AssociativeScanCorrect
import JaxDas.Loops.ClosedJaxpr
import JaxDas.Loops.Depends
import JaxDas.Loops.Scan
import JaxDas.Loops.Leading
import JaxDas.Loops.Unroll
import JaxDas.ScanSplit.Rule
import JaxDas.ScanJvp.Rule
import JaxDas.ScanJvp.Derivative
import JaxDas.ScanJvp.Dense
import JaxDas.ScanJvp.Jvp
import JaxDas.ScanSplit.Body
import JaxDas.ScanSplit.Recompute
import JaxDas.ScanSplit.Preserves
import JaxDas.StateDischarge.Discharge
import JaxDas.StateDischarge.Frame
import JaxDas.StateDischarge.Simulation
import JaxDas.StateDischarge.Equations
import JaxDas.StateDischarge.Calls
import JaxDas.StateDischarge.Correct
import JaxDas.WhileBatching.Rule
import JaxDas.WhileBatching.Level
import JaxDas.WhileBatching.Semantic
import JaxDas.WhileBatching.Simulation
import JaxDas.WhileBatching.Vmap
import JaxDas.ShardingRule.Mapping
import JaxDas.ShardingRule.Parse
import JaxDas.ShardingRule.Grammar
import JaxDas.ShardingRule.Steps
import JaxDas.ShardingRule.Complete
import JaxDas.ShardingRule.Sound
import JaxDas.ShardingRule.Correct
