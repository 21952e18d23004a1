import BEpsilon.Lib.Prog
import BEpsilon.Lib.Always
import BEpsilon.Lib.Bytes
import BEpsilon.Lib.Routing
import BEpsilon.Lib.Census
import BEpsilon.Lib.Slots
import BEpsilon.Lib.Fanout
import BEpsilon.Lib.Chunks
import BEpsilon.Lib.Growth
import BEpsilon.Lib.History
import BEpsilon.Lib.Holders
import BEpsilon.Lib.Keyed
import BEpsilon.Lib.Levels
import BEpsilon.Lib.ObjectBytes
import BEpsilon.Lib.PlainMap
import BEpsilon.Lib.Pool
import BEpsilon.Lib.Ranks
import BEpsilon.Lib.Refine
import BEpsilon.Buffer.PageProg
import BEpsilon.Buffer.Queue
import BEpsilon.Buffer.PageBuffer
import BEpsilon.Buffer.PinPage
import BEpsilon.Buffer.Invariant
import BEpsilon.Buffer.Caching
import BEpsilon.Buffer.Client
import BEpsilon.Buffer.Outcomes
import BEpsilon.Buffer.QueueLog
import BEpsilon.Buffer.Eviction
import BEpsilon.Buffer.Failing
import BEpsilon.Buffer.TreeStore
import BEpsilon.Buffer.Rounds
import BEpsilon.File.Segment
import BEpsilon.Buffer.Layout
import BEpsilon.Buffer.Fills
import BEpsilon.Buffer.Known
import BEpsilon.Buffer.PageLogic
import BEpsilon.File.SegmentManager
import BEpsilon.File.Layout
import BEpsilon.File.Invariant
import BEpsilon.File.Flush
import BEpsilon.File.Client
import BEpsilon.File.Allocator
import BEpsilon.File.CreateOnly
import BEpsilon.File.Reliable
import BEpsilon.File.Reopen
import BEpsilon.File.Append
import BEpsilon.Buffer.OnFiles
import BEpsilon.Buffer.Optimal
import BEpsilon.Buffer.Outstanding
import BEpsilon.Buffer.PageFull
import BEpsilon.Buffer.Pins
import BEpsilon.Buffer.Sharing
import BEpsilon.Buffer.SharingInv
import BEpsilon.Buffer.SharingViews
import BEpsilon.Buffer.SharingPin
import BEpsilon.Buffer.SharingSafe
import BEpsilon.Buffer.StoreFull
import BEpsilon.BTree.Node
import BEpsilon.BTree.Program
import BEpsilon.BTree.Filled
import BEpsilon.BTree.Bytes
import BEpsilon.BTree.Tree
import BEpsilon.BTree.Leaf
import BEpsilon.BTree.Insert
import BEpsilon.BTree.InsertRoot
import BEpsilon.BTree.Pairs
import BEpsilon.BTree.InsertFull
import BEpsilon.BTree.Search
import BEpsilon.BTree.Refine
import BEpsilon.BTree.OnBuffer
import BEpsilon.BTree.InsertFails
import BEpsilon.Trees.Latches
import BEpsilon.Trees.LatchRules
import BEpsilon.BTree.Latching
import BEpsilon.BTree.Structure
import BEpsilon.BTree.Pages
import BEpsilon.BTree.OnFiles
import BEpsilon.BTree.Pins
import BEpsilon.BeTree.Upsert
import BEpsilon.BeTree.Node
import BEpsilon.BeTree.Messages
import BEpsilon.BeTree.Blocks
import BEpsilon.BeTree.Inner
import BEpsilon.BeTree.Asserts
import BEpsilon.BeTree.Program
import BEpsilon.BeTree.Median
import BEpsilon.BeTree.Leaf
import BEpsilon.BeTree.Tree
import BEpsilon.BeTree.Rules
import BEpsilon.BeTree.Moves
import BEpsilon.BeTree.Grow
import BEpsilon.BeTree.Split
import BEpsilon.BeTree.Keeps
import BEpsilon.BeTree.Paths
import BEpsilon.BeTree.Watch
import BEpsilon.BeTree.Visit
import BEpsilon.BeTree.FlushLeaf
import BEpsilon.BeTree.VisitLeaf
import BEpsilon.BeTree.VisitInner
import BEpsilon.BeTree.FlushInner
import BEpsilon.BeTree.LeafTarget
import BEpsilon.BeTree.TopBuffer
import BEpsilon.BeTree.InnerTarget
import BEpsilon.BeTree.SplitRoot
import BEpsilon.BeTree.RootUpsert
import BEpsilon.BeTree.RootLeaf
import BEpsilon.BeTree.Calls
import BEpsilon.BeTree.Content
import BEpsilon.BeTree.Structure
import BEpsilon.BeTree.Gather
import BEpsilon.BeTree.Find
import BEpsilon.BeTree.Answers
import BEpsilon.BeTree.Bounds
import BEpsilon.BeTree.InnerSplit
import BEpsilon.BeTree.InsertPivots
import BEpsilon.BeTree.Interleaving
import BEpsilon.BeTree.Pins
import BEpsilon.BeTree.Latching
import BEpsilon.BeTree.LeafSlots
import BEpsilon.BeTree.LeafFlush
import BEpsilon.BeTree.MedianRank
import BEpsilon.BeTree.Merge
import BEpsilon.BeTree.OnBuffer
import BEpsilon.BeTree.RootLatching
import BEpsilon.BeTree.RootSplit
import BEpsilon.BeTree.StaleSlot
import BEpsilon.Trees.Attempts
import BEpsilon.Trees.Pins
import BEpsilon.Trees.RootLatch
import BEpsilon.File.Threads
import BEpsilon.File.ThreadsInv
import BEpsilon.File.ThreadsStep
import BEpsilon.File.Concurrent
