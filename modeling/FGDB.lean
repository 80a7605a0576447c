import FGDB.Buddy.ArenaPages
import FGDB.Buddy.Blocks
import FGDB.Buddy.DestroyArena
import FGDB.Buddy.DoubleFree
import FGDB.Buddy.Geometry
import FGDB.Buddy.Memory
import FGDB.Buddy.Merge
import FGDB.Buddy.NewPool
import FGDB.Buddy.Pool
import FGDB.Buddy.Requests
import FGDB.Buddy.Tree
import FGDB.Client.Conversation
import FGDB.Client.MessagePack
import FGDB.Client.SendMessage
import FGDB.Common
import FGDB.Foundation.BinaryTree
import FGDB.Foundation.Bytes
import FGDB.Foundation.Deque
import FGDB.Foundation.File
import FGDB.Foundation.Linearizability
import FGDB.Foundation.Memory
import FGDB.Foundation.PagedArray
import FGDB.Foundation.Records
import FGDB.Foundation.Replay
import FGDB.Foundation.Run
import FGDB.Foundation.SearchTree
import FGDB.HashMap.AnyTree
import FGDB.HashMap.AvlInsert
import FGDB.HashMap.AvlNode
import FGDB.HashMap.AvlRemove
import FGDB.HashMap.AvlTree
import FGDB.HashMap.Balance
import FGDB.HashMap.Bucket
import FGDB.HashMap.Counters
import FGDB.HashMap.Deletions
import FGDB.HashMap.Dictionary
import FGDB.HashMap.Erase
import FGDB.HashMap.Insertions
import FGDB.HashMap.Key
import FGDB.HashMap.NoEffect
import FGDB.HashMap.Sequence
import FGDB.HashMap.Split
import FGDB.HashMap.Table
import FGDB.Operations.Answers
import FGDB.Operations.Connection
import FGDB.Operations.Database
import FGDB.Operations.Dispatch
import FGDB.Operations.Emptied
import FGDB.Operations.Index
import FGDB.Operations.Refinement
import FGDB.Operations.Replay
import FGDB.Operations.Reply
import FGDB.Operations.Steps
import FGDB.Operations.Worker
import FGDB.Pages.Access
import FGDB.Pages.Accounting
import FGDB.Pages.Arena
import FGDB.Pages.Clean
import FGDB.Pages.Contents
import FGDB.Pages.Defragmentation
import FGDB.Pages.Disk
import FGDB.Pages.Eviction
import FGDB.Pages.Extent
import FGDB.Pages.Layout
import FGDB.Pages.Lru
import FGDB.Pages.LruOrder
import FGDB.Pages.Manager
import FGDB.Pages.Meta
import FGDB.Pages.Packing
import FGDB.Pages.Placement
import FGDB.Pages.Reclaim
import FGDB.Pages.Residence
import FGDB.Pages.Snapshot
import FGDB.Pages.Steps
import FGDB.Queue.Heap
import FGDB.Queue.Order
import FGDB.Queue.PagedHeap
import FGDB.Queue.PagedRefinement
import FGDB.Queue.Threads
import FGDB.Queue.TransactionQueue
import FGDB.Restart.Checkpoint
import FGDB.Restart.KeyCount
import FGDB.Restart.KeyFile
import FGDB.Restart.Listing
import FGDB.Restart.LogFile
import FGDB.Restart.Rebuild
import FGDB.Restart.Reopen
import FGDB.Restart.Session
import FGDB.Restart.Shutdown
import FGDB.Restart.SnapshotFiles
import FGDB.Restart.Start
import FGDB.Restart.Survival
import FGDB.Restart.Teardown
import FGDB.Restart.Watermark
import FGDB.Server.Buffer
import FGDB.Server.Message
import FGDB.Server.Parse
import FGDB.Server.Request
import FGDB.Service.Linearization
import FGDB.Service.Ownership
import FGDB.Service.Process
import FGDB.Service.Progress
import FGDB.Service.Requests
import FGDB.Vector.Block
import FGDB.Vector.Runs
import FGDB.Wal.CutLog
import FGDB.Wal.Log
import FGDB.Wal.Recovery
import FGDB.Wal.WriteLoop
