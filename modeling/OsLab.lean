import OsLab.Lib.Chain
import OsLab.Lib.Cmd
import OsLab.Lib.Forest
import OsLab.Lib.LockOrder
import OsLab.Lib.Mailbox
import OsLab.Lib.Registry
import OsLab.Lib.Run
import OsLab.Lib.Wakeup
import OsLab.Machine
import OsLab.Mutex
import OsLab.SpinLocks
import OsLab.Proc
import OsLab.ProcRuns
import OsLab.Life
import OsLab.Getppid
import OsLab.MsgQueue
import OsLab.MailView
import OsLab.Vm
import OsLab.Exec
import OsLab.MemCalls
import OsLab.AddrSpace
import OsLab.MemGuard
import OsLab.WaitxMem
import OsLab.Fork
import OsLab.LazyLocks
import OsLab.MutexProcs
import OsLab.Accounting
import OsLab.Spill
import OsLab.QueueLocks
import OsLab.QueueIds
import OsLab.Residue
import OsLab.MsgAccess
import OsLab.RecvCalls
import OsLab.BlockedCalls
import OsLab.Lemmas.Life
import OsLab.Lemmas.LifeRuns
import OsLab.Lemmas.QueueHeap
import OsLab.Lemmas.QueueInv
import OsLab.Lemmas.QueueRuns
import OsLab.Lemmas.MailView
import OsLab.Lemmas.QueueCalls
import OsLab.Lemmas.QueueLocks
import OsLab.Lemmas.QueueIds
import OsLab.Lemmas.Residue
import OsLab.Lemmas.RecvCalls
import OsLab.Lemmas.AddrSpace
import OsLab.Lemmas.Vm
import OsLab.Lemmas.VmBuild
import OsLab.Lemmas.Exec
import OsLab.Lemmas.MemCalls
import OsLab.Lemmas.MemRuns
import OsLab.Lemmas.ShortRuns
import OsLab.Lemmas.Teardown
import OsLab.Lemmas.Ledger
import OsLab.Lemmas.Fork
import OsLab.Lemmas.ProcCases
import OsLab.Lemmas.MutexProcs
import OsLab.Lemmas.Accounting
import OsLab.Theorems.Console
import OsLab.Theorems.Mutex
import OsLab.Theorems.Reaping
import OsLab.Theorems.BornKilled
import OsLab.Theorems.ProcForest
import OsLab.Theorems.ByPid
import OsLab.Theorems.WaitxWrites
import OsLab.Theorems.Getppid
import OsLab.Theorems.Fork
import OsLab.Theorems.MsgQueue
import OsLab.Theorems.QueueLifetime
import OsLab.Theorems.PageOwnership
import OsLab.Theorems.UserLimit
import OsLab.Theorems.AddressSpace
import OsLab.Theorems.ShmCount
import OsLab.Theorems.Shmem
import OsLab.Theorems.ShmAtomic
import OsLab.Theorems.Scheduler
import OsLab.CopyTools
import OsLab.Lemmas.Posix
import OsLab.Theorems.CopyTools
import OsLab.Lib.Records
import OsLab.Lib.Ring
import OsLab.LineTools
import OsLab.Lemmas.Lines
import OsLab.Theorems.Head
import OsLab.Theorems.Tail
import OsLab.Theorems.Grep
import OsLab.Lib.Compare
import OsLab.Sort
import OsLab.Lemmas.Sort
import OsLab.Theorems.Sort
import OsLab.FileTree
import OsLab.Rm
import OsLab.Lemmas.FileTree
import OsLab.Lemmas.Rm
import OsLab.Theorems.Rm
import OsLab.Theorems.RmDepth
import OsLab.Theorems.MutexOwner
import OsLab.Theorems.MutexWakeup
import OsLab.Theorems.QueueWakeup
import OsLab.Theorems.QueueIdentity
import OsLab.Theorems.Residue
import OsLab.Theorems.FailedReceive
import OsLab.Theorems.BlockedCalls
import OsLab.Theorems.LostExit
import OsLab.Theorems.Accounting
import OsLab.Theorems.LazyLocks
import OsLab.Theorems.NodeBounds
import OsLab.Theorems.MsgAccess
import OsLab.Lib.Words
import OsLab.Chmod
import OsLab.Theorems.Chmod
import OsLab.Shell
import OsLab.CommandLine
import OsLab.Lemmas.Redirections
import OsLab.Lemmas.Shell
import OsLab.Theorems.Redirections
import OsLab.Theorems.PipeCleanup
import OsLab.Theorems.ShellArgs
import OsLab.Theorems.ShellBuiltins
import OsLab.Theorems.ShellLines
import OsLab.Lib.Links
import OsLab.Bio
import OsLab.Lib.Bytes
import OsLab.Lib.Redo
import OsLab.Log
import OsLab.Lemmas.Bio
import OsLab.Lemmas.Log
import OsLab.Theorems.Log
import OsLab.Theorems.LogSpace
import OsLab.Lib.Fifo
import OsLab.Pipe
import OsLab.Lemmas.Pipe
import OsLab.Theorems.Pipe
