import OsLab.ProcRuns
import Mathlib.Data.Fintype.Basic

/-!
# The clock and the run times

The timer interrupt of CPU 0 counts `ticks` under `tickslock` and then charges every `RUNNING` process in `update_rtime`, under
`ptable.lock`. `acctSys` takes the two steps in turn, and lets any steps of the process calls come between and after them, on any
CPUs. Beside the processes it keeps which processes each `update_rtime` has found `RUNNING`, and what `waitx` has reported.
-/

namespace OsLab

/-- The wait time that `sys_waitx` computes for a child. -/
def waitxWtime (p : Proc) : Int := int32 (p.etime - p.ctime - p.rtime)

/-- What `waitx` has reported of a child, with the times that the child had. -/
structure TimeReport where
  inst : Nat
  ctime : Int
  etime : Int
  wtime : Int
  rtime : Int
  deriving DecidableEq, Repr

/-- The processes, the clock, and the record. -/
structure AcctSt where
  procs : ProcSt
  /-- The timer interrupt stands between `ticks++` and `update_rtime`. -/
  due : Bool
  /-- The number of ticks so far. -/
  ticked : Nat
  /-- For each `update_rtime`, newest first, which instances it has found `RUNNING`. -/
  updates : List (Nat → Bool)
  reports : List TimeReport

/-- The state after `userinit`. -/
def AcctSt.boot (k d : Frame) : AcctSt := { procs := .boot k d, due := false, ticked := 0, updates := [], reports := [] }

/-- An instance is `RUNNING` in some slot. -/
def ProcSt.runs (s : ProcSt) (n : Nat) : Bool := decide (∃ i, (s.table.proc i).state = .running ∧ s.inst i = n)

namespace AcctSt

/-- The number of `update_rtime` steps at which the instance was `RUNNING`. -/
def timesRunning (s : AcctSt) (n : Nat) : Nat := s.updates.countP (· n)

/-- What a turn of the loop of a wait by `cur` reports, when the wait is `waitx` and finds a zombie. -/
def turnReport (s : AcctSt) (cur : Slot) (w : WaitCall) (t : Table) : List TimeReport :=
  match w with
  | .waitx _ _ =>
    match waitScan w cur t false slots with
    | .zombie i =>
      [{ inst := s.procs.inst i, ctime := (t.proc i).ctime, etime := (t.proc i).etime, wtime := waitxWtime (t.proc i),
         rtime := (t.proc i).rtime }]
    | .none _ => []
  | _ => []

/-- What a step reports. -/
def report (s : AcctSt) : ProcAct → List TimeReport
  | .dispatch p =>
    match s.procs.pc p with
    | .waiting w => s.turnReport p w (dispatch p s.procs.table)
    | _ => []
  | .waitx p (some a) (some b) => s.turnReport p (.waitx a b) s.procs.table
  | _ => []

end AcctSt

/-- One step: the two of the timer interrupt come in turn. -/
def acctStep (A : KernelAddrs) (s : AcctSt) (a : ProcAct) : Option AcctSt :=
  match a with
  | .tick =>
    if s.due then none else (procStep A s.procs .tick).map fun t => { s with procs := t, due := true, ticked := s.ticked + 1 }
  | .updateRtime =>
    if s.due then
      (procStep A s.procs .updateRtime).map fun t => { s with procs := t, due := false, updates := s.procs.runs :: s.updates }
    else none
  | a => (procStep A s.procs a).map fun t => { s with procs := t, reports := s.report a ++ s.reports }

/-- The process calls and the timer, in any order of their steps. -/
def acctSys (A : KernelAddrs) : Sys AcctSt ProcAct where
  init s := ∃ k d, s = .boot k d
  step := acctStep A

/-- `update_rtime` charges only processes that were created before the tick, and `waitx` is called with addresses in user space
only. -/
def ChargesOld (s : AcctSt) : ProcAct → Prop
  | .updateRtime => ∀ i, (s.procs.table.proc i).state = .running → (s.procs.table.proc i).ctime ≠ s.procs.table.ticks
  | a => UserWaitx s.procs a

instance (w : WaitCall) : Decidable w.UserAddrs := by
  unfold WaitCall.UserAddrs
  split <;> infer_instance

instance (s : ProcSt) (a : ProcAct) : Decidable (UserWaitx s a) := by
  unfold UserWaitx
  split <;> infer_instance

instance (s : AcctSt) (a : ProcAct) : Decidable (ChargesOld s a) := by
  unfold ChargesOld
  split <;> infer_instance

end OsLab
