import Ps4o.BaseCase
import Ps4o.Config
import Ps4o.Classifier
import Ps4o.LocalClassification
import Ps4o.Partitioning
import Ps4o.Progress
import Ps4o.Scheduler
import Ps4o.Sequential
import Ps4o.Order.Stripes
import Ps4o.SortedTest
import Ps4o.OrderedPartition
import Ps4o.UnrolledStripes
import Ps4o.SmallTasks
import Ps4o.ParallelClassification
import Ps4o.ParallelDistribution
import Ps4o.PostProcessing
import Ps4o.SharedBuckets
import Ps4o.Order.Work
import Ps4o.Program.Team
import Ps4o.Termination
import Ps4o.Finishing
import Ps4o.ParallelPartition
import Ps4o.Tasks
import Ps4o.BigTasks
import Ps4o.Synchronization
import Ps4o.PoolCalls
import Ps4o.SplitterStorage
import Ps4o.Lifetimes
import Ps4o.OracleBytes
import Ps4o.ParallelLifetimes
import Ps4o.InPlace.Blocks
import Ps4o.InPlace.Margins
import Ps4o.InPlace.BlockPermutation
import Ps4o.InPlace.BlockInvariant
import Ps4o.InPlace.Buffers
import Ps4o.InPlace.Classification
import Ps4o.InPlace.SequentialPermutation
import Ps4o.InPlace.Cleanup
import Ps4o.InPlace.Partitioning
import Ps4o.InPlace.TaskRounds
import Ps4o.InPlace.TaskQueues
import Ps4o.InPlace.ParallelCleanup
import Ps4o.Order.Compaction
import Ps4o.InPlace.EmptyBlocks
import Ps4o.InPlace.EmptyBlockMovement
import Ps4o.Conservation
import Ps4o.TasksUnderWay
import Ps4o.ParallelSort
import Ps4o.ParallelThreads
import Ps4o.WorkConservation
import Ps4o.ParallelCorrectness
import Ps4o.RunStripes
import Ps4o.InPlace.BufferStorage
import Ps4o.InPlace.PackedPointers
import Ps4o.InPlace.BufferedClassification
import Ps4o.InPlace.OverflowBlock
import Ps4o.InPlace.StripedBlocks
import Ps4o.Program.Session
import Ps4o.InPlace.Sequential
import Ps4o.InPlace.Reuse
import Ps4o.InPlace.ElementwisePermutation
import Ps4o.Program.View
import Ps4o.InPlace.ThreadStorage
import Ps4o.InPlace.ParallelPartition
