import OsLab.ProcRuns

/-!
# getppid

`sys_getppid` takes no lock: it reads the parent pointer of the caller and then the pid in the slot that it points to. `ppidSys` cuts it
into these two reads and lets the steps of the process calls come between them, those of the caller apart: it is in the kernel, and can
only be preempted.

For the record, a call that has made its first read carries the instance that was in the slot then, and the pids that the caller's parent
has had since the call began.
-/

namespace OsLab

/-- A `sys_getppid` between its two reads. -/
structure PpidRead where
  /-- The parent pointer that it has read. -/
  slot : Slot
  /-- The instance that was in the slot. -/
  inst : Nat
  /-- The pids of the caller's parent since the call began, newest first. -/
  seen : List Int
  deriving DecidableEq, Repr

/-- A `sys_getppid` that has returned. -/
structure PpidReturn where
  caller : Slot
  value : Int
  /-- The pids of the caller's parent during the call. -/
  seen : List Int
  deriving DecidableEq, Repr

/-- The call has returned the pid that the caller's parent had at some moment of the call. -/
def PpidReturn.Linear (r : PpidReturn) : Prop := r.value ∈ r.seen ∧ r.value ≠ 0

/-- The process calls, the calls of `sys_getppid` that are under way, and those that have returned, newest first. -/
structure PpidSt where
  procs : ProcSt
  reads : Slot → Option PpidRead
  log : List PpidReturn

/-- The state after `userinit`. -/
def PpidSt.boot (k d : Frame) : PpidSt := { procs := .boot k d, reads := fun _ => none, log := [] }

/-- The steps of the process calls, and the two reads. -/
inductive PpidAct where
  | proc (a : ProcAct)
  | readParent (p : Slot)
  | readPid (p : Slot)

/-- The process whose code the step is in. A process is dispatched and preempted wherever it is. -/
def ProcAct.caller : ProcAct → Option Slot
  | .dispatch _ => none
  | .yield _ => none
  | .wakeup _ => none
  | .tick => none
  | .updateRtime => none
  | .sleep p _ => some p
  | .fork p => some p
  | .fork2 p _ => some p
  | .forkStack p _ => some p
  | .forkCopy p _ => some p
  | .forkPublish p => some p
  | .exitClose p => some p
  | .exit p => some p
  | .wait p => some p
  | .waitx p _ _ => some p
  | .waitpid p _ => some p
  | .kill p _ => some p
  | .sigkill p _ => some p
  | .setPriority p _ _ => some p
  | .fault p => some p

/-- The pid of a process's parent, if it has one. -/
def parentPid (t : Table) (p : Slot) : List Int := ((t.proc p).parent.map fun j => (t.proc j).pid).toList

namespace PpidSt

/-- No process takes a step of another call while it is in `sys_getppid`. -/
def admits (s : PpidSt) (a : ProcAct) : Bool := a.caller.all fun p => (s.reads p).isNone

/-- The process calls have come to `t`, and the calls under way have seen it. -/
def watch (s : PpidSt) (t : ProcSt) : PpidSt :=
  { s with procs := t, reads := fun p => (s.reads p).map fun r => { r with seen := parentPid t.table p ++ r.seen } }

end PpidSt

/-- One step: `none` when it cannot be taken. -/
def ppidStep (A : KernelAddrs) (s : PpidSt) : PpidAct → Option PpidSt
  | .proc a => if s.admits a then (procStep A s.procs a).map s.watch else none
  | .readParent p =>
    if s.procs.At p .user ∧ s.reads p = none then
      match (s.procs.table.proc p).parent with
      | none => some { s with log := ⟨p, -1, []⟩ :: s.log }
      | some j =>
        some { s with reads := Function.update s.reads p (some ⟨j, s.procs.inst j, [(s.procs.table.proc j).pid]⟩) }
    else none
  | .readPid p =>
    match s.reads p with
    | none => none
    | some r =>
      if s.procs.At p .user then
        some { s with
          reads := Function.update s.reads p none
          log := ⟨p, (s.procs.table.proc r.slot).pid, r.seen⟩ :: s.log }
      else none

/-- The process calls and `sys_getppid` of any processes, in any order of their steps. -/
def ppidSys (A : KernelAddrs) : Sys PpidSt PpidAct where
  init s := ∃ k d, s = .boot k d
  step := ppidStep A

/-! ## Conditions -/

/-- `waitx` is called with addresses in user space only. -/
def UserWaitxPpid (s : PpidSt) : PpidAct → Prop
  | .proc a => UserWaitx s.procs a
  | _ => True

/-- The slot that a call has read still has the process that was in it. -/
def PpidSt.Holds (s : PpidSt) (r : PpidRead) : Prop :=
  s.procs.inst r.slot = r.inst ∧ (s.procs.table.proc r.slot).state ≠ .unused

instance (s : PpidSt) (r : PpidRead) : Decidable (s.Holds r) := inferInstanceAs (Decidable (_ ∧ _))

end OsLab
