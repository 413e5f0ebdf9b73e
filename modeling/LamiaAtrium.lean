import LamiaAtrium.Lib.Lts
import LamiaAtrium.Sched.Correctness.Waiting
import LamiaAtrium.Timer.Correctness.Lockstep
import LamiaAtrium.Mem.Memphy
import LamiaAtrium.Os.Os
import LamiaAtrium.Os.Correctness.Places
import LamiaAtrium.Os.Correctness.Shutdown
import LamiaAtrium.Os.Correctness.Completion
import LamiaAtrium.Os.Correctness.Running
import LamiaAtrium.Mem.Paging
import LamiaAtrium.Mem.Tables
import LamiaAtrium.Mem.Correctness.PageTable
import LamiaAtrium.Mem.Libmem
import LamiaAtrium.Mem.Run
import LamiaAtrium.Lib.Regions
import LamiaAtrium.Mem.Correctness.Regions
import LamiaAtrium.Mem.Correctness.Store
import LamiaAtrium.Mem.Correctness.Exclusive
import LamiaAtrium.Lib.Mask
import LamiaAtrium.Mem.Correctness.Residency
import LamiaAtrium.Mem.Correctness.Space
import LamiaAtrium.Mem.Correctness.Backed
import LamiaAtrium.Mem.Correctness.Recycled
import LamiaAtrium.Mem.Correctness.Rollback
import LamiaAtrium.Mem.Access
import LamiaAtrium.Mem.Correctness.Inside
import LamiaAtrium.Mem.Correctness.Bounds
import LamiaAtrium.Mem.Correctness.Conserved
import LamiaAtrium.Mem.Correctness.Codec
import LamiaAtrium.Mem.Correctness.Replacement
import LamiaAtrium.Timer.Correctness.Wakeups
import LamiaAtrium.Mem.Correctness.Mapping
import LamiaAtrium.Mem.Correctness.Status
import LamiaAtrium.Os.Config
import LamiaAtrium.Os.Correctness.Admission
import LamiaAtrium.Mem.Correctness.FirstFit
import LamiaAtrium.Mem.Correctness.Pool
import LamiaAtrium.Mem.Correctness.NewSpace
import LamiaAtrium.Mem.Correctness.Teardown
import LamiaAtrium.Mem.Correctness.Operands
import LamiaAtrium.Mem.Correctness.PageNumbers
import LamiaAtrium.Os.Correctness.Slicing
import LamiaAtrium.Sched.Correctness.Quota
import LamiaAtrium.Mem.Correctness.Walkers
import LamiaAtrium.Mem.Correctness.Areas
import LamiaAtrium.Mem.Correctness.ByteStore
import LamiaAtrium.Lib.Scan
import LamiaAtrium.Loader.Loader
import LamiaAtrium.Sched.Correctness.Queues
import LamiaAtrium.Loader.Correctness.Grammar
import LamiaAtrium.Loader.Correctness.Stale
import LamiaAtrium.Mem.Correctness.Isolation
import LamiaAtrium.Lib.Trie
import LamiaAtrium.Mem.Correctness.PageTrees
import LamiaAtrium.Mem.Correctness.OwnPages
import LamiaAtrium.Os.Correctness.Pace
import LamiaAtrium.Os.Correctness.Deadline
import LamiaAtrium.Os.ReadConfig
import LamiaAtrium.Os.Correctness.BootText
import LamiaAtrium.Sched.Correctness.Fairness
import LamiaAtrium.Os.Correctness.Alive
import LamiaAtrium.Mem.Correctness.Crashes
import LamiaAtrium.Os.Correctness.WholeRun
import LamiaAtrium.Sched.Correctness.RunToCompletion
import LamiaAtrium.Mem.Correctness.NoReplacement
import LamiaAtrium.Mem.Correctness.Safety
import LamiaAtrium.Mem.Correctness.Behind
