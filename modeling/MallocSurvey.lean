import MallocSurvey.Ranking.Table
import MallocSurvey.Library.Transition
import MallocSurvey.Library.Ledger
import MallocSurvey.Ltalloc.PTrieMap
import MallocSurvey.Ltalloc.CentralInvariant
import MallocSurvey.Ltalloc.CacheSteps
import MallocSurvey.Ltalloc.Registry
import MallocSurvey.Library.CellList
import MallocSurvey.Ltalloc.Squeeze
import MallocSurvey.Ltalloc.SqueezeRefinement
import MallocSurvey.Ltalloc.System
import MallocSurvey.Ltalloc.ClassInvariant
import MallocSurvey.Ltalloc.SqueezeCount
import MallocSurvey.Ltalloc.SqueezeSteps
import MallocSurvey.Ltalloc.SystemInvariant
import MallocSurvey.Ltalloc.SystemSteps
import MallocSurvey.Library.ByteMemory
import MallocSurvey.Library.FreeLists
import MallocSurvey.DumbTlsf.System
import MallocSurvey.DumbTlsf.Invariant
import MallocSurvey.DumbTlsf.Safety
import MallocSurvey.Winnie2.System
import MallocSurvey.Winnie2.Invariant
import MallocSurvey.Winnie2.Steps
import MallocSurvey.Winnie2.Reuse
import MallocSurvey.Library.DoublyLinked
import MallocSurvey.Tlsf1.Allocator
import MallocSurvey.Tlsf1.Pieces
import MallocSurvey.Tlsf1.Lists
import MallocSurvey.Tlsf1.Layout
import MallocSurvey.Tlsf1.Merging
import MallocSurvey.Tlsf1.Taking
import MallocSurvey.Tlsf1.External
import MallocSurvey.Tlsf1.Externalised
import MallocSurvey.Tlsf1.Accounting
import MallocSurvey.Tlsf1.Bitmaps
import MallocSurvey.Tlsf1.Inline
import MallocSurvey.Tlsf1.Inlined
import MallocSurvey.Tlsf1.Headers
import MallocSurvey.Obstack.Chain
import MallocSurvey.Obstack.System
import MallocSurvey.Obstack.Steps
import MallocSurvey.FsbAllocator.System
import MallocSurvey.FsbAllocator.Steps
import MallocSurvey.FsbAllocator.Index
import MallocSurvey.FsbAllocator.Exact
import MallocSurvey.FsbAllocator2.System
import MallocSurvey.Library.GapFilling
import MallocSurvey.FsbAllocator2.Steps
import MallocSurvey.FsbAllocator2.Marking
import MallocSurvey.FsbAllocator2.Sweep
import MallocSurvey.FsbAllocator2.Swept
import MallocSurvey.FsbAllocator2.Safety
import MallocSurvey.Ltalloc.LargeSteps
import MallocSurvey.Ltalloc.LargeBlocks
import MallocSurvey.Tav.MBAlloc
import MallocSurvey.Tav.System
import MallocSurvey.Tav.Shelves
import MallocSurvey.Tav.Frames
import MallocSurvey.Tav.Taking
import MallocSurvey.Tav.Starting
import MallocSurvey.Tav.Returning
import MallocSurvey.Tav.Conserved
import MallocSurvey.Gjalloc.Page
import MallocSurvey.Gjalloc.Sorting
import MallocSurvey.Gjalloc.Chunks
import MallocSurvey.Gjalloc.Growing
import MallocSurvey.Gjalloc.Grown
import MallocSurvey.Gjalloc.Merged
import MallocSurvey.Gjalloc.MergePages
import MallocSurvey.Gjalloc.HashTable
import MallocSurvey.Gjalloc.Allocator
import MallocSurvey.Library.Queue
import MallocSurvey.Uray.Queues
import MallocSurvey.Uray.Exact
import MallocSurvey.Library.Tiling
import MallocSurvey.Winnie1.Pool
import MallocSurvey.Winnie1.Split
import MallocSurvey.Winnie1.Steps
import MallocSurvey.Winnie1.Tiles
import MallocSurvey.DumbTlsf.UsedMemory
import MallocSurvey.DumbTlsf.Rounds
import MallocSurvey.DumbTlsf.Reuse
import MallocSurvey.FcMalloc.BitIndex
import MallocSurvey.FcMalloc.Positions
import MallocSurvey.FcMalloc.Refinement
import MallocSurvey.MicroAllocator.Invariant
import MallocSurvey.MicroAllocator.Steps
import MallocSurvey.MicroAllocator.Allocation
import MallocSurvey.MicroAllocator.LifeCycle
import MallocSurvey.FcMalloc.Visits
import MallocSurvey.Library.Ascending
import MallocSurvey.FcMalloc.Iteration
import MallocSurvey.Library.Slab
import MallocSurvey.Ironpeter.Mspace
import MallocSurvey.Ironpeter.Invariant
import MallocSurvey.Ironpeter.Clean
import MallocSurvey.Ironpeter.Steps
import MallocSurvey.Ironpeter.Freeing
import MallocSurvey.Ironpeter.Kept
import MallocSurvey.FcMalloc.ThreadAllocator
import MallocSurvey.FcMalloc.BlockLayout
import MallocSurvey.FcMalloc.BlockPlaces
import MallocSurvey.FcMalloc.HandingOut
import MallocSurvey.FcMalloc.HandedOut
import MallocSurvey.Gjalloc.LogPages
import MallocSurvey.Library.TaggedSlab
import MallocSurvey.Gjalloc.LogSteps
import MallocSurvey.Gjalloc.LogKept
import MallocSurvey.FcMalloc.BlockHeader
import MallocSurvey.FcMalloc.ChainKept
import MallocSurvey.FcMalloc.ChainRuns
import MallocSurvey.Library.LinkRing
import MallocSurvey.Library.RingBuffer
import MallocSurvey.ReaderWriterQueue.Invariant
import MallocSurvey.ReaderWriterQueue.Threads
import MallocSurvey.ReaderWriterQueue.Consuming
import MallocSurvey.ReaderWriterQueue.Destruction
import MallocSurvey.Winnie3.Blocks
import MallocSurvey.Winnie3.Registry
import MallocSurvey.Winnie3.Kept
import MallocSurvey.Library.LogLinear
import MallocSurvey.Tlsf.Mapping
import MallocSurvey.Tlsf1.Available
import MallocSurvey.Library.BoundaryTags
import MallocSurvey.Library.Segregated
import MallocSurvey.Tlsf.Allocator
import MallocSurvey.Tlsf.Representation
import MallocSurvey.Tlsf.FreeLists
import MallocSurvey.Tlsf.Blocks
import MallocSurvey.Tlsf.Splitting
import MallocSurvey.Tlsf.Freeing
import MallocSurvey.Tlsf.Resizing
import MallocSurvey.Tlsf.Moving
import MallocSurvey.Tlsf.Aligning
import MallocSurvey.Ltalloc.Adjunction
import MallocSurvey.Winnie2.FixedPool
import MallocSurvey.Winnie1.Moving
import MallocSurvey.Winnie1.Payloads
import MallocSurvey.Gjalloc.HandingOut
import MallocSurvey.Ltalloc.BatchStack
import MallocSurvey.Ltalloc.BatchOverflow
import MallocSurvey.Ltalloc.SmallSteps
import MallocSurvey.Ltalloc.SqueezeEvents
import MallocSurvey.Ltalloc.SystemRuns
import MallocSurvey.Ltalloc.Conservation
import MallocSurvey.Ltalloc.Failures
import MallocSurvey.Ltalloc.SqueezeRuns
import MallocSurvey.Ltalloc.Calls
import MallocSurvey.Ltalloc.Memalign
import MallocSurvey.Ltalloc.Contents
import MallocSurvey.Ltalloc.Reallocation
import MallocSurvey.Tlsf.Pools
import MallocSurvey.Gjalloc.Filling
import MallocSurvey.Gjalloc.Scanning
import MallocSurvey.Gjalloc.Layouts
import MallocSurvey.Obstack.Room
import MallocSurvey.Balloc.Buckets
import MallocSurvey.Balloc.Recycling
import MallocSurvey.Tlsf.Checks
import MallocSurvey.Tlsf.System
import MallocSurvey.Tlsf.Calls
import MallocSurvey.Tlsf.Requests
import MallocSurvey.Tlsf.Lifetimes
import MallocSurvey.FcMalloc.Heap
import MallocSurvey.FcMalloc.HeapChain
import MallocSurvey.FcMalloc.HeapBins
import MallocSurvey.FcMalloc.HeapFreeing
import MallocSurvey.FcMalloc.HeapServing
import MallocSurvey.FcMalloc.HeapPools
import MallocSurvey.FcMalloc.HeapSystem
import MallocSurvey.FcMalloc.HeapRuns


