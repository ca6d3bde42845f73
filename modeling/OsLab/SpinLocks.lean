import OsLab.Lib.LockOrder

/-!
# What the kernel does with its spin locks

Each entry of the kernel, cut down to its `acquire` and `release` calls, with the calls it makes expanded: `cprintf` takes
`cons.lock` (`console.c`), `wakeup` and `sleep` take `ptable.lock` (`proc.c`), `kalloc` and `kfree` take `kmem.lock`
(`kalloc.c`, after `kinit2`). A branch on data is an `alt`, a loop over data a `loop`.

`sched` switches to the scheduler of the CPU with `ptable.lock` held, and whoever the scheduler picks next releases it
(`forkret`, or the end of `sleep` and `yield`): `ptable.lock` is the lock handed over. The locks of the file system (the
log, the buffer cache, the disk, the file table and the inode cache) are not part of the model.
-/

namespace OsLab

/-- The spin locks. A message queue and a sleep lock have one each. -/
inductive Lock where
  | ptable
  | cons
  | ticks
  | kmem
  | shmtable
  | mutexTable
  | queueList
  | queue (q : Nat)
  | sleeplock (i : Nat)
  deriving DecidableEq, Repr

namespace SpinLocks

open LockProg

/-- `kalloc` and `kfree`. -/
def kalloc : LockProg Lock := block [acquire .kmem, release .kmem]

/-- `cprintf`, with `cons.locking` set. -/
def cprintf : LockProg Lock := block [acquire .cons, release .cons]

/-- `wakeup`. -/
def wakeup : LockProg Lock := block [acquire .ptable, release .ptable]

/-- `sleep(chan, lk)` for a lock `lk` other than `ptable.lock`. -/
def sleep (lk : Lock) : LockProg Lock :=
  block [acquire .ptable, release lk, park, release .ptable, acquire lk]

/-- `yield`. -/
def yield : LockProg Lock := block [acquire .ptable, park, release .ptable]

/-- `acquiresleep`, called by `ilock`. -/
def ilock (i : Nat) : LockProg Lock :=
  block [acquire (.sleeplock i), loop (sleep (.sleeplock i)), release (.sleeplock i)]

/-- `releasesleep`, called by `iunlock`. -/
def iunlock (i : Nat) : LockProg Lock := block [acquire (.sleeplock i), wakeup, release (.sleeplock i)]

/-- `update_rtime`. -/
def updateRtime : LockProg Lock := block [acquire .ptable, release .ptable]

/-- `wait`, and `waitx` and `waitpid`: the scan, again after each sleep on `ptable.lock` itself, and the teardown of the
child (its stack, its pages and page tables) under the lock. -/
def wait : LockProg Lock := block [acquire .ptable, loop park, opt (block [kalloc, loop kalloc]), release .ptable]

/-- `sys_waitx` when a store through `wtime_addr` or `rtime_addr` faults: the trap handler reports an unexpected trap with
`ptable.lock` still held, and panics. -/
def waitxFault : LockProg Lock := block [acquire .ptable, loop park, cprintf, halt]

/-- `sys_cps`: a header, and a line for each process with `ptable.lock` held. -/
def sysCps : LockProg Lock := block [cprintf, acquire .ptable, loop cprintf, release .ptable]

/-- `consoleintr`: each character, with `cons.lock` held, may wake a reader; `procdump` runs after the release. -/
def consoleintr : LockProg Lock :=
  block [acquire .cons, loop (opt wakeup), release .cons, opt (loop cprintf)]

/-- `consoleread` of the inode `i`. -/
def consoleread (i : Nat) : LockProg Lock :=
  block [iunlock i, acquire .cons, loop (sleep .cons), release .cons, ilock i]

/-- `consolewrite` of the inode `i`. -/
def consolewrite (i : Nat) : LockProg Lock := block [iunlock i, acquire .cons, release .cons, ilock i]

/-- The timer interrupt: CPU 0 counts the tick, and a running process yields. -/
def timer : LockProg Lock :=
  block [opt (block [acquire .ticks, wakeup, release .ticks, updateRtime]), opt yield]

/-- `sys_sleep`. -/
def sysSleep : LockProg Lock := block [acquire .ticks, loop (sleep .ticks), release .ticks]

/-- `fork` and `fork2`: `allocproc`, the stack, the copy of the address space (freed again when memory runs out), and the
child made runnable. -/
def fork : LockProg Lock :=
  block [acquire .ptable, release .ptable, loop kalloc, opt (block [acquire .ptable, spawn, release .ptable])]

/-- `exit`: the last switch, which is never picked again. -/
def exit : LockProg Lock := block [acquire .ptable, park, halt]

/-- `kill`, `sys_set_priority` and `sys_getprocs`: a scan of the table. -/
def kill : LockProg Lock := block [acquire .ptable, release .ptable]

/-- `growproc` and `sys_shmem`: pages, and the message when they run out. -/
def growproc : LockProg Lock := block [loop kalloc, opt (block [cprintf, loop kalloc])]

/-- `shmget`: the region's page on first use and a page table for the mapping, with `shmtable.lock` held. -/
def shmget : LockProg Lock := opt (block [acquire .shmtable, opt kalloc, opt kalloc, release .shmtable])

/-- `shmem_count`. -/
def shmemCount : LockProg Lock := opt (block [acquire .shmtable, release .shmtable])

/-- `sys_mutex_create`. -/
def mutexCreate : LockProg Lock := block [acquire .mutexTable, release .mutexTable]

/-- `sys_mutex_lock`. -/
def mutexLock : LockProg Lock := opt (block [acquire .mutexTable, loop (sleep .mutexTable), release .mutexTable])

/-- `sys_mutex_unlock`: the wakeup comes after the release. -/
def mutexUnlock : LockProg Lock := opt (block [acquire .mutexTable, release .mutexTable, opt wakeup])

/-- `sys_msgget`: a new queue is allocated with `queue_list_lock` held. -/
def msgget : LockProg Lock := block [acquire .queueList, opt kalloc, release .queueList]

/-- `sys_msgsnd` on the queue `q`: the wakeup comes before the release. -/
def msgsnd (q : Nat) : LockProg Lock :=
  block [acquire .queueList, release .queueList,
    opt (block [kalloc, opt (block [acquire (.queue q), wakeup, release (.queue q)])])]

/-- `sys_msgrcv` on the queue `q`. -/
def msgrcv (q : Nat) : LockProg Lock :=
  block [acquire .queueList, release .queueList,
    opt (block [acquire (.queue q), loop (sleep (.queue q)), release (.queue q), opt kalloc])]

/-- `sys_msgctl` on the queue `q`: the messages are freed, and the waiters woken, with the queue's lock held. -/
def msgctl (q : Nat) : LockProg Lock :=
  block [acquire .queueList, release .queueList,
    opt (block [acquire (.queue q), loop kalloc, wakeup, release (.queue q), kalloc])]

/-- The scheduler, from the point where a process has come back to it: it goes on through the table, releases
`ptable.lock`, and starts over. -/
def scheduler : List (LockProg Lock) :=
  [loop pick, release .ptable, loop (block [acquire .ptable, loop pick, release .ptable]), halt]

end SpinLocks

/-- The entries of the kernel. -/
inductive KernelEntry where
  | cps | consoleintr | consoleread (i : Nat) | consolewrite (i : Nat) | cprintf | wakeup
  | wait | waitx | waitpid | waitxFault | updateRtime | timer | sysSleep | yield
  | fork | exit | kill | growproc | shmget | shmemCount
  | mutexCreate | mutexLock | mutexUnlock
  | msgget | msgsnd (q : Nat) | msgrcv (q : Nat) | msgctl (q : Nat)
  deriving DecidableEq, Repr

/-- What each entry does with the locks. -/
def KernelEntry.code : KernelEntry → LockProg Lock
  | cps => SpinLocks.sysCps
  | consoleintr => SpinLocks.consoleintr
  | consoleread i => SpinLocks.consoleread i
  | consolewrite i => SpinLocks.consolewrite i
  | cprintf => SpinLocks.cprintf
  | wakeup => SpinLocks.wakeup
  | wait | waitx | waitpid => SpinLocks.wait
  | waitxFault => SpinLocks.waitxFault
  | updateRtime => SpinLocks.updateRtime
  | timer => SpinLocks.timer
  | sysSleep => SpinLocks.sysSleep
  | yield => SpinLocks.yield
  | fork => SpinLocks.fork
  | exit => SpinLocks.exit
  | kill => SpinLocks.kill
  | growproc => SpinLocks.growproc
  | shmget => SpinLocks.shmget
  | shmemCount => SpinLocks.shmemCount
  | mutexCreate => SpinLocks.mutexCreate
  | mutexLock => SpinLocks.mutexLock
  | mutexUnlock => SpinLocks.mutexUnlock
  | msgget => SpinLocks.msgget
  | msgsnd q => SpinLocks.msgsnd q
  | msgrcv q => SpinLocks.msgrcv q
  | msgctl q => SpinLocks.msgctl q

/-- The kernel as a machine of CPUs sees it. -/
def spinKernel : LockKernel Lock KernelEntry where
  hand := .ptable
  code := KernelEntry.code
  sched := SpinLocks.scheduler

/-- The kernel on the CPUs `C`. At boot every CPU is in its scheduler and holds nothing, and the processes there are wait
to be picked for the first time (`forkret` releases `ptable.lock` and goes to user mode). -/
def spinSys (C : Type*) [DecidableEq C] [Fintype C] : Sys (LockMachine C Lock) (C × LockMove KernelEntry) where
  init m := (∀ c, m.cpu c = { held := [], todo := SpinLocks.scheduler.drop 2 }) ∧
    ∀ k ∈ m.parked, k = [.release .ptable, .user]
  step m a := m.step spinKernel a

end OsLab
