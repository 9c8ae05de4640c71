import LibtorrentGo.Subscript
import LibtorrentGo.WhileLoop
import LibtorrentGo.Runs
import LibtorrentGo.Splice
import LibtorrentGo.MachineInt
import LibtorrentGo.EarliestScan
import LibtorrentGo.Tenancy
import LibtorrentGo.Recency
import LibtorrentGo.Absorbing
import LibtorrentGo.Shelf
import LibtorrentGo.Window
import LibtorrentGo.Paging
import LibtorrentGo.Locks
import LibtorrentGo.Storage
import LibtorrentGo.Links
import LibtorrentGo.Operations
import LibtorrentGo.Copies
import LibtorrentGo.WellFormed
import LibtorrentGo.Calls
import LibtorrentGo.Regular
import LibtorrentGo.Replay
import LibtorrentGo.PoolSize
import LibtorrentGo.Growth
import LibtorrentGo.VictimSearch
import LibtorrentGo.Residency
import LibtorrentGo.Ledger
import LibtorrentGo.Safety
import LibtorrentGo.Stages
import LibtorrentGo.Eviction
import LibtorrentGo.Untouched
import LibtorrentGo.Transfers
import LibtorrentGo.Reservation
import LibtorrentGo.Counters
import LibtorrentGo.Termination
import LibtorrentGo.Trimming
import LibtorrentGo.Contents
import LibtorrentGo.Completeness
import LibtorrentGo.Restores
import LibtorrentGo.Lru
import LibtorrentGo.Picker
import LibtorrentGo.Interleaving
import LibtorrentGo.MemorySize
import LibtorrentGo.Cache
import LibtorrentGo.Refinement
import LibtorrentGo.SplitWrites
import LibtorrentGo.WorkingSet
import LibtorrentGo.Threads
import LibtorrentGo.Alone
import LibtorrentGo.CrewRuns
import LibtorrentGo.Strokes
import LibtorrentGo.Orderly
import LibtorrentGo.Strays
import LibtorrentGo.Headroom
import LibtorrentGo.Pinned
import LibtorrentGo.Careless
import LibtorrentGo.Served
import LibtorrentGo.Readers
import LibtorrentGo.Downloads
import LibtorrentGo.Progress
import LibtorrentGo.Sharing
import LibtorrentGo.Deliveries
import LibtorrentGo.CrewPicker
