import OsLab.Machine
import OsLab.Lib.Run
import Mathlib.Data.List.FinRange

/-!
# User mutexes

`user_mutexes` and the system calls over it (`sysproc.c`). The body of a call between `acquire` and `release` of
`mutex_table_lock` is one function of the table: `mutexCreate`, `mutexLockPass` (one test of the `while` of
`sys_mutex_lock`) and `mutexUnlock`.

`mutexSys` interleaves them. A process that finds the mutex locked is handed to `sleep`, which gives up the table lock, so
the `while` is cut into passes; `sys_mutex_unlock` calls `wakeup` after it has released the table lock, so the wakeup is a
step of its own and any other step may come between; `kill` makes a sleeper runnable, and the sleeper only tests again.
-/

namespace OsLab

/-- `MAX_MUTEXES`. -/
abbrev MAX_MUTEXES : Nat := 10

/-- The index of a mutex in `user_mutexes`. -/
abbrev MutexId := Fin MAX_MUTEXES

/-- An entry of `user_mutexes`. -/
structure UserMutex where
  allocated : Bool
  locked : Bool
  pid : Int
  deriving DecidableEq, Repr

/-- `user_mutexes`. -/
abbrev MutexTable := MutexId → UserMutex

/-- The table at boot: static data, all zero. -/
def MutexTable.boot : MutexTable := fun _ => { allocated := false, locked := false, pid := 0 }

/-- The mutex a system call names: `none` when `argint` fails or the number is out of range. -/
def argMutex (a : Arg) : Option MutexId :=
  match a with
  | none => none
  | some id => if h : 0 ≤ id ∧ id.toNat < MAX_MUTEXES then some ⟨id.toNat, h.2⟩ else none

/-- The first entry that is not allocated. -/
def freeMutex (t : MutexTable) : Option MutexId :=
  (List.finRange MAX_MUTEXES).find? fun i => !(t i).allocated

/-- The body of `sys_mutex_create`: the id it returns (`none` is -1) and the table it leaves. -/
def mutexCreate (t : MutexTable) : Option MutexId × MutexTable :=
  match freeMutex t with
  | none => (none, t)
  | some i => (some i, Function.update t i { allocated := true, locked := false, pid := 0 })

/-- What one pass of `sys_mutex_lock` under the table lock comes to: it returns a value, or it sleeps. -/
inductive LockPass where
  | ret (r : Int)
  | sleep
  deriving DecidableEq, Repr

/-- One test of the `while` of `sys_mutex_lock` by the process with this pid, and what follows it when the mutex is free. -/
def mutexLockPass (pid : Int) (id : MutexId) (t : MutexTable) : LockPass × MutexTable :=
  if (t id).locked then (.sleep, t)
  else (.ret 0, Function.update t id { t id with locked := true, pid := pid })

/-- The first pass of `sys_mutex_lock`, which also tests `allocated`. -/
def mutexLock (pid : Int) (id : MutexId) (t : MutexTable) : LockPass × MutexTable :=
  if !(t id).allocated then (.ret (-1), t) else mutexLockPass pid id t

/-- The body of `sys_mutex_unlock` by the process with this pid. -/
def mutexUnlock (pid : Int) (id : MutexId) (t : MutexTable) : Int × MutexTable :=
  if !(t id).allocated || !(t id).locked || (t id).pid != pid then (-1, t)
  else (0, Function.update t id { t id with locked := false, pid := 0 })

/-- Where a process is in the code of the mutex calls. -/
inductive MutexPc where
  /-- In none of them. -/
  | user
  /-- In the `while` of `sys_mutex_lock`, made runnable and about to test again. -/
  | retry (id : MutexId)
  /-- Asleep on `&user_mutexes[id]`. -/
  | asleep (id : MutexId)
  /-- In `sys_mutex_unlock`, after the release and before the `wakeup`. -/
  | waking (id : MutexId)
  deriving DecidableEq, Repr

/-- What has happened, for the record: a call is recorded at the critical section that decides it. -/
inductive MutexEvent (P : Type*) where
  /-- `mutex_create` returned this id. -/
  | created (p : P) (id : MutexId)
  /-- `mutex_lock(id)` succeeded. -/
  | locked (p : P) (id : MutexId)
  /-- `mutex_unlock(id)` succeeded. -/
  | unlocked (p : P) (id : MutexId)

/-- The processes and the table, with the record of what has succeeded so far, newest first. -/
structure MutexState (P : Type*) where
  table : MutexTable
  pc : P → MutexPc
  killed : P → Bool
  log : List (MutexEvent P)

/-- Every process outside the calls, and nothing created yet. -/
def MutexState.boot {P : Type*} : MutexState P :=
  { table := MutexTable.boot, pc := fun _ => .user, killed := fun _ => false, log := [] }

/-- The steps of the processes. -/
inductive MutexAct (P : Type*) where
  | create (p : P)
  | lock (p : P) (id : Arg)
  | retry (p : P)
  | unlock (p : P) (id : Arg)
  | wakeup (p : P)
  | kill (p : P)

section

variable {P : Type*} [DecidableEq P] (pid : P → Int)

/-- A process put at a place of the code. -/
def MutexState.setPc (s : MutexState P) (p : P) (c : MutexPc) : MutexState P :=
  { s with pc := Function.update s.pc p c }

/-- What `sleep` or the return do after a pass of `sys_mutex_lock(id)`. -/
def MutexState.afterPass (s : MutexState P) (p : P) (id : MutexId) (r : LockPass × MutexTable) : MutexState P :=
  match r.1 with
  | .sleep => ({ s with table := r.2 } : MutexState P).setPc p (.asleep id)
  | .ret v =>
    let log := if v = 0 then .locked p id :: s.log else s.log
    ({ s with table := r.2, log := log } : MutexState P).setPc p .user

/-- One step: `none` when the process is not at a place where it could take it. -/
def mutexStep (s : MutexState P) : MutexAct P → Option (MutexState P)
  | .create p =>
    if s.pc p = .user then
      match mutexCreate s.table with
      | (none, _) => some s
      | (some i, t) => some { s with table := t, log := .created p i :: s.log }
    else none
  | .lock p a =>
    if s.pc p = .user then
      match argMutex a with
      | none => some s
      | some id => some (s.afterPass p id (mutexLock (pid p) id s.table))
    else none
  | .retry p =>
    match s.pc p with
    | .retry id => some (s.afterPass p id (mutexLockPass (pid p) id s.table))
    | _ => none
  | .unlock p a =>
    if s.pc p = .user then
      match argMutex a with
      | none => some s
      | some id =>
        match mutexUnlock (pid p) id s.table with
        | (0, t) => some (({ s with table := t, log := .unlocked p id :: s.log } : MutexState P).setPc p (.waking id))
        | _ => some s
    else none
  | .wakeup p =>
    match s.pc p with
    | .waking id =>
      let woken : P → MutexPc := fun q => if s.pc q = .asleep id then .retry id else s.pc q
      some (({ s with pc := woken } : MutexState P).setPc p .user)
    | _ => none
  | .kill p =>
    -- `kill` makes a sleeping process runnable; its next step is to test the mutex again
    let s' := { s with killed := Function.update s.killed p true }
    match s.pc p with
    | .asleep id => some (s'.setPc p (.retry id))
    | _ => some s'

/-- The mutex calls of any number of processes, in any order of their critical sections. -/
def mutexSys : Sys (MutexState P) (MutexAct P) where
  init s := s = .boot
  step := mutexStep pid

/-- By the record, the last thing `p` did with `id` was to lock it: `mutex_lock(id)` has returned 0 to it without a later
successful `mutex_unlock(id)` by itself. -/
def holds (p : P) (id : MutexId) : List (MutexEvent P) → Bool
  | [] => false
  | .created _ _ :: l => holds p id l
  | .locked q j :: l => if q = p ∧ j = id then true else holds p id l
  | .unlocked q j :: l => if q = p ∧ j = id then false else holds p id l

/-- The ids that `mutex_create` has returned, newest first. -/
def createdIds : List (MutexEvent P) → List MutexId
  | [] => []
  | .created _ i :: l => i :: createdIds l
  | _ :: l => createdIds l

end

end OsLab
