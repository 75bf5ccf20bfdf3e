import Optimap.FlatBTree.Append
import Optimap.FlatBTree.AppendLaw
import Optimap.FlatBTree.BulkLeaves
import Optimap.FlatBTree.BulkLevels
import Optimap.FlatBTree.BulkLoad
import Optimap.FlatBTree.BulkRefinement
import Optimap.FlatBTree.Clearing
import Optimap.FlatBTree.Clone
import Optimap.FlatBTree.Collapse
import Optimap.FlatBTree.Crown
import Optimap.FlatBTree.Deletion
import Optimap.FlatBTree.DoubleEnded
import Optimap.FlatBTree.Drain
import Optimap.FlatBTree.Grafting
import Optimap.FlatBTree.Grafts
import Optimap.FlatBTree.Growth
import Optimap.FlatBTree.Heap
import Optimap.FlatBTree.Insertion
import Optimap.FlatBTree.IntoIter
import Optimap.FlatBTree.Iteration
import Optimap.FlatBTree.LeafRebalance
import Optimap.FlatBTree.LeafSplit
import Optimap.FlatBTree.Leaves
import Optimap.FlatBTree.Levels
import Optimap.FlatBTree.Marks
import Optimap.FlatBTree.Mirror
import Optimap.FlatBTree.Moving
import Optimap.FlatBTree.MovingHalf
import Optimap.FlatBTree.Node
import Optimap.FlatBTree.NodeBytes
import Optimap.FlatBTree.Ownership
import Optimap.FlatBTree.PathBuffer
import Optimap.FlatBTree.Programs
import Optimap.FlatBTree.Range
import Optimap.FlatBTree.RangeLaw
import Optimap.FlatBTree.RangePositions
import Optimap.FlatBTree.RawBTree
import Optimap.FlatBTree.Refinement
import Optimap.FlatBTree.Removal
import Optimap.FlatBTree.Retain
import Optimap.FlatBTree.RetainRuns
import Optimap.FlatBTree.Rotation
import Optimap.FlatBTree.SearchVariants
import Optimap.FlatBTree.Shrink
import Optimap.FlatBTree.Spine
import Optimap.FlatBTree.SplitHalves
import Optimap.FlatBTree.SplitLaw
import Optimap.FlatBTree.SplitOff
import Optimap.FlatBTree.SplitPath
import Optimap.FlatBTree.StayingHalf
import Optimap.FlatBTree.SubtreeCopy
import Optimap.FlatBTree.Subtrees
import Optimap.FlatBTree.TallTrees
import Optimap.FlatBTree.VacantInsertion
import Optimap.FlatSet.Algebra
import Optimap.FlatSet.RawTable
import Optimap.FlatSet.Refinement
import Optimap.FlatSet.Simulation
import Optimap.FlatSet.UnorderedFlatSet
import Optimap.Hash.Components
import Optimap.HashEngines.AllocationLayout
import Optimap.HashEngines.CapacityWords
import Optimap.HashEngines.EntryInsertion
import Optimap.HashEngines.Probing
import Optimap.HashEngines.Reserve
import Optimap.Lib.BinarySearch
import Optimap.Lib.Bitset
import Optimap.Lib.Cells
import Optimap.Lib.CountingSort
import Optimap.Lib.FiniteMap
import Optimap.Lib.Fuel
import Optimap.Lib.GuardedRuns
import Optimap.Lib.Interleave
import Optimap.Lib.Lanes
import Optimap.Lib.Linked
import Optimap.Lib.Placement
import Optimap.Lib.Probing
import Optimap.Lib.Regions
import Optimap.Lib.SortedMap
import Optimap.Map.EntryInsertion
import Optimap.Map.GenericMap
import Optimap.Map.GenericMapInvariant
import Optimap.Map.GenericMapRefinement
import Optimap.Map.GenericMapTotal
import Optimap.Map.Growth
import Optimap.Map.RawTableApi
import Optimap.Map.Reference
import Optimap.Opti.Capacity
import Optimap.Opti.Engines
import Optimap.Opti.OptiMap
import Optimap.Opti.Policy
import Optimap.Opti.PolicyBands
import Optimap.Opti.Refinement
import Optimap.Opti.ReserveCapacity
import Optimap.Overflow.Allocation
import Optimap.Overflow.AntiDrift
import Optimap.Overflow.Contract
import Optimap.Overflow.EntryInsertion
import Optimap.Overflow.Headroom
import Optimap.Overflow.Invariant
import Optimap.Overflow.Layout
import Optimap.Overflow.Probes
import Optimap.Overflow.RawTable
import Optimap.Overflow.Refinement
import Optimap.Overflow.ReserveLaw
import Optimap.Overflow.SentinelReads
import Optimap.Overflow.SingleBit
import Optimap.Overflow.SlotUpdates
import Optimap.Overflow.Termination
import Optimap.Perfect.Bucketed
import Optimap.Perfect.BucketedProperties
import Optimap.Perfect.Chd
import Optimap.Perfect.ChdProperties
import Optimap.Perfect.Multilevel
import Optimap.Perfect.MultilevelProperties
import Optimap.Perfect.PerfectMap
import Optimap.Perfect.PerfectMapUnchecked
import Optimap.Perfect.Phf
import Optimap.Perfect.Slab
import Optimap.Tomb.ByteOffsets
import Optimap.Tomb.Contract
import Optimap.Tomb.EntryInsertion
import Optimap.Tomb.GroupScans
import Optimap.Tomb.Invariant
import Optimap.Tomb.Operations
import Optimap.Tomb.Probes
import Optimap.Tomb.RawTable
import Optimap.Tomb.Refinement
import Optimap.Tomb.ReserveLaw
import Optimap.Tomb.SlotUpdates
