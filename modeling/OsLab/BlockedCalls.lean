import OsLab.Lib.Chain
import OsLab.MsgQueue
import OsLab.MutexProcs
import OsLab.WaitxMem

/-!
# The loops that sleep

`sys_waitx`, `sys_waitpid`, `sys_msgrcv` and `sys_mutex_lock` each sleep in a loop of their own: the first two under `ptable.lock`, the
third under the lock of its queue, the last under `mutex_table_lock`. `BlockedCall.turn` is one turn of the loop in a kernel state that
has memory and the process table, the message queues and the mutexes side by side.
-/

namespace OsLab

/-- What the four loops look at. The flag that the message calls read is the one in the process table, the address space of a zombie can
be torn down, and the messages of a queue are a list that ends. -/
structure LoopState (L : Layout) (A : Type*) where
  kern : Kern
  msgs : MsgSt Slot A
  mutexes : MutexTable
  killed_eq : ∀ p, msgs.killed p = ((kern.table.proc p).killed != 0)
  reapable : ∀ p, (kern.table.proc p).state ≠ .unused → Reapable L kern p
  running : msgs.fault = none
  chains : ∀ a Q, queueAt msgs.page a = some Q → ∃ l, Chain (nextNode msgs.page) Q.head l none

/-- A call that is in its loop, with what it has fetched by then. -/
inductive BlockedCall (A : Type*) where
  | waitx (wtimeAddr rtimeAddr : Int)
  | waitpid (pid : Int)
  | msgrcv (q : QueueRef A) (c : RecvCall)
  | mutexLock (id : MutexId)

/-- What a turn comes to. -/
inductive LoopTurn where
  /-- The caller goes to sleep. -/
  | sleeps
  /-- The call returns -1. -/
  | fails
  /-- The call has what it waited for. -/
  | gets
  /-- The machine stops, or the call goes where the model does not follow it: `waitx` stores where nothing is mapped or into the kernel,
  or a queue is not one. -/
  | strays
  deriving DecidableEq, Repr

/-- A turn of the loop of `sys_waitpid`. -/
def waitpidTurn (L : Layout) (cur : Slot) (pid : Int) : KernM WaitEnd := do
  let t := (← get).table
  match waitScan (.waitpid pid) cur t false slots with
  | .zombie i => return .returns (← reapPages L (waitpidReap i t))
  | .none havekids =>
    if !havekids || (t.proc cur).killed != 0 then pure (.returns (-1))
    else
      onTable (sleepOn cur (.proc cur))
      pure .sleeps

/-- A turn of `sys_waitx` or `sys_waitpid`, by what it comes to. -/
def waitLoopTurn : Except Panic (WaitEnd × Kern) → LoopTurn
  | .error _ => .strays
  | .ok (.sleeps, _) => .sleeps
  | .ok (.returns v, _) => if v = -1 then .fails else .gets

/-- A turn of `sys_msgrcv`, by where it leaves the caller. -/
def recvLoopTurn {A : Type*} [DecidableEq A] [Fintype A] (s : MsgSt Slot A) (cur : Slot) (q : QueueRef A) (c : RecvCall) : LoopTurn :=
  let s' := msgrcvScan s cur q c
  if s'.fault.isSome then .strays
  else
    match s'.pc cur with
    | .asleep _ _ => .sleeps
    | .delivering _ _ => .gets
    | _ => .fails

/-- A turn of the `while` of `sys_mutex_lock`. -/
def lockLoopTurn (pid : Int) (id : MutexId) (t : MutexTable) : LoopTurn :=
  match (mutexLockPass pid id t).1 with
  | .sleep => .sleeps
  | .ret r => if r < 0 then .fails else .gets

section

variable {L : Layout} {A : Type*} [DecidableEq A] [Fintype A] (base : Nat) (k : LoopState L A) (cur : Slot)

/-- One turn of the loop of a call by `cur`. -/
def BlockedCall.turn : BlockedCall A → LoopTurn
  | .waitx a b => waitLoopTurn (waitxTurn L base cur a b k.kern)
  | .waitpid pid => waitLoopTurn (waitpidTurn L cur pid k.kern)
  | .msgrcv q c => recvLoopTurn k.msgs cur q c
  | .mutexLock id => lockLoopTurn (k.kern.table.proc cur).pid id k.mutexes

/-- A turn that begins with `killed` set ends the call: it returns -1, or has what it waited for. -/
def HonoursKill (l : BlockedCall A) : Prop :=
  (k.kern.table.proc cur).killed ≠ 0 → l.turn base k cur = .fails ∨ l.turn base k cur = .gets

/-- Nothing but `killed` is in the way of an end: what `waitx` stores for a zombie child goes where the caller may write, the queue of
`msgrcv` has not been removed, and the mutex is not locked. -/
def BlockedCall.CanEnd : BlockedCall A → Prop
  | .waitx a b => ∀ i d, waitScan (.waitx a b) cur k.kern.table false slots = .zombie i → (k.kern.table.proc cur).pgdir = some d →
    ∀ addr, addr = uintOf a ∨ addr = uintOf b → ∀ j < 4, Writable k.kern.phys.mem d (addr + j)
  | .waitpid _ => True
  | .msgrcv q _ => (k.msgs.deref q).isSome = true
  | .mutexLock id => (k.mutexes id).locked = false

end

end OsLab
