import Cop4600.Outline
import Cop4600.Relabel
import Cop4600.Reactions
import Cop4600.Storage
import Cop4600.PartialRuns
import Cop4600.Descriptor
import Cop4600.Traversal
import Cop4600.Turns
import Cop4600.Forest
import Cop4600.Lookup
import Cop4600.Subtree
import Cop4600.Wad
import Cop4600.Bounds
import Cop4600.Create
import Cop4600.Placement
import Cop4600.Runs
import Cop4600.Growth
import Cop4600.Siblings
import Cop4600.Listing
import Cop4600.Preorder
import Cop4600.Explore
import Cop4600.Uniqueness
import Cop4600.Success
import Cop4600.Disk
import Cop4600.Contents
import Cop4600.Limits
import Cop4600.Durable
import Cop4600.Wadfs
import Cop4600.Callbacks
import Cop4600.FileTree
import Cop4600.Mounted
import Cop4600.Reading
import Cop4600.PackedBits
import Cop4600.MaximalRuns
import Cop4600.MemoryManager
import Cop4600.Blocks
import Cop4600.Marks
import Cop4600.Holes
import Cop4600.Pools
import Cop4600.Ledger
import Cop4600.Allocators
import Cop4600.Wrapping
import Cop4600.Views
import Cop4600.ByteRanges
import Cop4600.Undo
import Cop4600.FreeScan
import Cop4600.Policy
import Cop4600.Fragmentation
import Cop4600.Lifetimes
import Cop4600.Heap
import Cop4600.HeapRuns
import Cop4600.Ring
import Cop4600.ParseUint
import Cop4600.Delimited
import Cop4600.Memory
import Cop4600.Wall
import Cop4600.Connection
import Cop4600.Framing
import Cop4600.Server
import Cop4600.Posting
import Cop4600.Serving
import Cop4600.Printing
import Cop4600.Dialogue
import Cop4600.Board
import Cop4600.Visits
import Cop4600.ProcLog
import Cop4600.OneWay
import Cop4600.Exchange
import Cop4600.SelectionSort
import Cop4600.Processes
import Cop4600.Pipeline
import Cop4600.Threads
