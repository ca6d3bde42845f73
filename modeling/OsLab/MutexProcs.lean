import OsLab.Mutex
import OsLab.ProcRuns

/-!
# The mutex calls and the process table

`OsLab.Mutex` has the critical sections of the mutex calls and `OsLab.ProcRuns` the process table. `mutexProcSys` runs them
together: a process that finds its mutex locked keeps `mutex_table_lock` until `sleep` has taken `ptable.lock` (the hand-over),
and is then `SLEEPING` on `&user_mutexes[id]` in the process table; the `wakeup` of `sys_mutex_unlock` comes after the release
of `mutex_table_lock`. Between these steps any other process may take any of its own, those of the process calls included.
-/

namespace OsLab

/-- The addresses of the kernel, with `&user_mutexes[0]`. -/
structure MutexAddrs extends KernelAddrs where
  mutexes : Nat

/-- `&user_mutexes[id]`: an entry is three `int`s. -/
def MutexAddrs.mutex (A : MutexAddrs) (id : MutexId) : Nat := A.mutexes + 12 * id

/-- Where a process is in the code of the mutex calls. -/
inductive MutexPlace where
  /-- In none of them. -/
  | user
  /-- In the `sleep` of `sys_mutex_lock`, with `mutex_table_lock` held. -/
  | handing (id : MutexId)
  /-- In the `sleep` of `sys_mutex_lock`, after the hand-over. -/
  | waiting (id : MutexId)
  /-- In `sys_mutex_unlock`, after the release and before the `wakeup`. -/
  | waking (id : MutexId)
  deriving DecidableEq, Repr

/-- The process table and the mutexes, who holds `mutex_table_lock` from one step to the next, and where each process is. -/
structure MutexProcSt where
  procs : ProcSt
  mutexes : MutexTable
  holder : Option Slot
  place : Slot → MutexPlace

/-- The state after `userinit`. -/
def MutexProcSt.boot (k d : Frame) : MutexProcSt :=
  { procs := .boot k d, mutexes := .boot, holder := none, place := fun _ => .user }

/-- The steps of the process calls, and those of the mutex calls. -/
inductive MutexProcAct where
  | proc (a : ProcAct)
  | create (p : Slot)
  | lock (p : Slot) (id : Arg)
  | handOver (p : Slot)
  | retry (p : Slot)
  | unlock (p : Slot) (id : Arg)
  | wakeup (p : Slot)

namespace MutexProcSt

/-- A process put at a place of the code. -/
def setPlace (s : MutexProcSt) (p : Slot) (c : MutexPlace) : MutexProcSt :=
  { s with place := Function.update s.place p c }

/-- The process table changed. -/
def setTable (s : MutexProcSt) (t : Table) : MutexProcSt := { s with procs := { s.procs with table := t } }

/-- The process is running outside the process calls, at this place. -/
def At (s : MutexProcSt) (p : Slot) (c : MutexPlace) : Prop := s.procs.At p .user ∧ s.place p = c

instance (s : MutexProcSt) (p : Slot) (c : MutexPlace) : Decidable (s.At p c) := inferInstanceAs (Decidable (_ ∧ _))

/-- `myproc()->pid`. -/
def pid (s : MutexProcSt) (p : Slot) : Int := (s.procs.table.proc p).pid

/-- The step of the process calls may be taken: its process is in none of the mutex calls, nobody else sleeps on a mutex or
wakes one, and a process that holds a spin lock is not interrupted. -/
def admits (A : MutexAddrs) (s : MutexProcSt) : ProcAct → Bool
  | .dispatch _ => true
  | .yield p => s.holder ≠ some p
  | .wakeup addr => ∀ id, addr ≠ A.mutex id
  | .tick => true
  | .updateRtime => true
  | .sleep p addr => s.place p = .user ∧ ∀ id, addr ≠ A.mutex id
  | .fork p => s.place p = .user
  | .fork2 p _ => s.place p = .user
  | .forkStack p _ => s.place p = .user
  | .forkCopy p _ => s.place p = .user
  | .forkPublish p => s.place p = .user
  | .exitClose p => s.place p = .user
  | .exit p => s.place p = .user
  | .wait p => s.place p = .user
  | .waitx p _ _ => s.place p = .user
  | .waitpid p _ => s.place p = .user
  | .kill p _ => s.place p = .user
  | .sigkill p _ => s.place p = .user
  | .setPriority p _ _ => s.place p = .user
  | .fault p => s.place p = .user

/-- What follows a pass of `sys_mutex_lock(id)`: the release and the return, or the call of `sleep`. -/
def afterPass (s : MutexProcSt) (p : Slot) (id : MutexId) (r : LockPass × MutexTable) : MutexProcSt :=
  match r.1 with
  | .ret _ => ({ s with mutexes := r.2 } : MutexProcSt).setPlace p .user
  | .sleep => ({ s with mutexes := r.2, holder := some p } : MutexProcSt).setPlace p (.handing id)

end MutexProcSt

/-- One step: `none` when the process is not at a place where it could take it, or would have to wait for `mutex_table_lock`. -/
def mutexProcStep (A : MutexAddrs) (s : MutexProcSt) : MutexProcAct → Option MutexProcSt
  | .proc a => if s.admits A a then (procStep A.toKernelAddrs s.procs a).map fun t => { s with procs := t } else none
  | .create p =>
    if s.At p .user ∧ s.holder = none then some { s with mutexes := (mutexCreate s.mutexes).2 } else none
  | .lock p a =>
    if s.At p .user ∧ s.holder = none then
      match argMutex a with
      | none => some s
      | some id => some (s.afterPass p id (mutexLock (s.pid p) id s.mutexes))
    else none
  | .handOver p =>
    match s.place p with
    | .handing id =>
      if s.procs.At p .user then
        some (({ s.setTable (sleepOn p (.other (A.mutex id)) s.procs.table) with holder := none }).setPlace p (.waiting id))
      else none
    | _ => none
  | .retry p =>
    match s.place p with
    | .waiting id =>
      if s.procs.At p .user ∧ s.holder = none then some (s.afterPass p id (mutexLockPass (s.pid p) id s.mutexes)) else none
    | _ => none
  | .unlock p a =>
    if s.At p .user ∧ s.holder = none then
      match argMutex a with
      | none => some s
      | some id =>
        match mutexUnlock (s.pid p) id s.mutexes with
        | (0, t) => some (({ s with mutexes := t } : MutexProcSt).setPlace p (.waking id))
        | _ => some s
    else none
  | .wakeup p =>
    match s.place p with
    | .waking id =>
      if s.procs.At p .user then
        some ((s.setTable (wakeup1 (some (.other (A.mutex id))) s.procs.table)).setPlace p .user)
      else none
    | _ => none

/-- The mutex and process calls of any processes, in any order of their steps. -/
def mutexProcSys (A : MutexAddrs) : Sys MutexProcSt MutexProcAct where
  init s := ∃ k d, s = .boot k d
  step := mutexProcStep A

/-! ## Conditions on the steps -/

/-- `waitx` is called with addresses in user space only. -/
def UserWaitxStep (s : MutexProcSt) : MutexProcAct → Prop
  | .proc a => UserWaitx s.procs a
  | _ => True

/-- No mutex is locked under the pid of this process. -/
def MutexProcSt.LocksNone (s : MutexProcSt) (p : Slot) : Prop := ∀ id, (s.mutexes id).locked = true → (s.mutexes id).pid ≠ s.pid p

/-- A process exits only when it has unlocked every mutex, and `waitx` is called with addresses in user space only. -/
def UnlocksFirst (s : MutexProcSt) : MutexProcAct → Prop
  | .proc (.exit p) => s.LocksNone p
  | .proc a => UserWaitx s.procs a
  | _ => True

/-- Kernel addresses as a link of the kernel may give them. -/
def sampleMutexAddrs : MutexAddrs := { toKernelAddrs := sampleAddrs, mutexes := 0x801100a0 }

end OsLab
