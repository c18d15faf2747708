import Hypertrie.Library.UnorderedMap
import Hypertrie.Library.Ensures
import Hypertrie.Library.Executes
import Hypertrie.Library.XorSum
import Hypertrie.Trait
import Hypertrie.EntrySet
import Hypertrie.Identifier
import Hypertrie.IdentifierAlgebra
import Hypertrie.NodeStorage
import Hypertrie.UpdateRequests
import Hypertrie.ApplyUpdate
import Hypertrie.RemainingEntry
import Hypertrie.RequestInvariant
import Hypertrie.RequestSpec
import Hypertrie.EdgeUpdate
import Hypertrie.NodeUpdate
import Hypertrie.PlanSpec
import Hypertrie.DepthUpdate
import Hypertrie.ExecuteDepth
import Hypertrie.Canonical
import Hypertrie.UpdateSpec
import Hypertrie.NodeContext
import Hypertrie.CanonicalUpdate
import Hypertrie.Library.AssocMap
import Hypertrie.SliceKey
import Hypertrie.ConstHypertrie
import Hypertrie.HandleCount
import Hypertrie.UpdateSafety
import Hypertrie.Handle
import Hypertrie.HandleRun
import Hypertrie.BulkUpdater
import Hypertrie.BulkUpdaterRun
import Hypertrie.SynchronousBulkUpdater
import Hypertrie.SynchronousBulkUpdaterRun
import Hypertrie.DiagonalSlice
import Hypertrie.HashDiagonal
import Hypertrie.PermutationSort
import Hypertrie.HashJoin
import Hypertrie.HashJoinSpec
import Hypertrie.Library.SlotWrites
import Hypertrie.OptionalHashJoin
import Hypertrie.OptionalHashJoinSpec
import Hypertrie.RawIterator
import Hypertrie.ReadPaths
import Hypertrie.ProductOverflow
import Hypertrie.FullCartesianResult
import Hypertrie.Library.Assignment
import Hypertrie.UndirectedGraph
import Hypertrie.Einsum
import Hypertrie.EinsumJoin
import Hypertrie.EinsumCartesian
import Hypertrie.EinsumSpec
import Hypertrie.EinsumBool
import Hypertrie.PartialSlice
import Hypertrie.SubscriptString
import Hypertrie.CartesianDecomposition
import Hypertrie.Library.Worklist
import Hypertrie.OperandDependencyGraph
import Hypertrie.QueryOperands
import Hypertrie.Library.Bag
import Hypertrie.QueryCartesian
import Hypertrie.OptionalCartesian
import Hypertrie.EmptyOperand
import Hypertrie.Library.BoundedQueue
import Hypertrie.Library.Simulation
import Hypertrie.ProducerConsumerQueue
import Hypertrie.QueuedBulkUpdater
import Hypertrie.BulkUpdaterProgress
import Hypertrie.EinsumAlgebra
import Hypertrie.Library.Components
import Hypertrie.QueryBlocks
import Hypertrie.QueryComponents
import Hypertrie.QueryEvaluation
