import OsLab.Lemmas.Accounting

/-!
# The times that `waitx` reports

The run time of a child is the number of times that `update_rtime` has found it `RUNNING`. The wait time is what remains of its
life, which is negative for a child that is created between `ticks++` and `update_rtime` and is `RUNNING` by the latter: it is
charged for a tick that came before it.
-/

namespace OsLab

open AcctAux

/-- In every run with fewer than `2 ^ 31` ticks in which `update_rtime` charges only processes older than the tick, and `waitx` is
given user addresses, every report of `waitx` has the number of `update_rtime` steps at which the child was `RUNNING` as its run
time, and what remains of the child's life as its wait time, which is not negative. -/
theorem waitx_times_consistent {A : KernelAddrs} {s : AcctSt} (h : (acctSys A).Reach ChargesOld s) (hfew : s.ticked < 2 ^ 31)
    (r : TimeReport) (hr : r ∈ s.reports) :
    r.rtime = s.timesRunning r.inst ∧ r.wtime = r.etime - r.ctime - r.rtime ∧ 0 ≤ r.wtime ∧ 0 ≤ r.rtime ∧
      r.rtime ≤ r.etime - r.ctime := by
  have hrep := (acctInv_of_reach h hfew).reports r hr
  have hcount := hrep.count
  have hwtime := hrep.wtime
  have hnonneg := hrep.nonneg
  refine ⟨hcount, hwtime, hnonneg, ?_, ?_⟩
  · rw [hcount]
    exact Int.natCast_nonneg _
  · omega

/-- init forks a child and waits for it with `waitx`; the child runs for a tick, and exits between the steps of the next. -/
def childCharged : List ProcAct :=
  [.dispatch 0, .fork 0, .forkStack 0 (some 3), .forkCopy 0 (some 4), .forkPublish 0, .waitx 0 (some 0) (some 4), .dispatch 1,
    .tick, .updateRtime, .tick, .exitClose 1, .exit 1, .updateRtime, .dispatch 0]

/-- The state in which init has reaped it. -/
def childChargedState : AcctSt := ((acctSys sampleAddrs).runOk ChargesOld (.boot 1 2) childCharged).get (by decide +kernel)

/-- The child was `RUNNING` at one of the two `update_rtime` steps of its life, and waited for one tick. -/
theorem waitx_times_consistent_child : ∃ r ∈ childChargedState.reports, r.rtime = 1 ∧ r.wtime = 1 ∧
    r.rtime = childChargedState.timesRunning r.inst ∧ r.wtime = r.etime - r.ctime - r.rtime ∧ 0 ≤ r.wtime := by
  have hreach : (acctSys sampleAddrs).Reach ChargesOld childChargedState := .runOk (.init ⟨1, 2, rfl⟩) (Option.some_get _).symm
  have hreports : childChargedState.reports = [⟨1, 0, 2, 1, 1⟩] := by decide +kernel
  have hmem : (⟨1, 0, 2, 1, 1⟩ : TimeReport) ∈ childChargedState.reports := by
    rw [hreports]
    exact List.mem_singleton_self _
  obtain ⟨hrtime, hwtime, hnonneg, -, -⟩ := waitx_times_consistent hreach (by decide +kernel) _ hmem
  exact ⟨_, hmem, rfl, rfl, hrtime, hwtime, hnonneg⟩

/-- init forks a child between `ticks++` and `update_rtime`, and waits for it with `waitx`; the child runs and exits before the next
tick. -/
def childAhead : List ProcAct :=
  [.dispatch 0, .tick, .fork 0, .forkStack 0 (some 3), .forkCopy 0 (some 4), .forkPublish 0, .waitx 0 (some 0) (some 4),
    .dispatch 1, .updateRtime, .exitClose 1, .exit 1, .dispatch 0]

/-- The state in which init has reaped it. -/
def childAheadState : AcctSt := ((acctSys sampleAddrs).run (.boot 1 2) childAhead).get (by decide +kernel)

/-- The child was created and exited at tick 1, has been charged for one, and `waitx` reports a wait time of -1. -/
theorem waitx_negative_wtime : (acctSys sampleAddrs).Reachable childAheadState ∧ childAheadState.ticked = 1 ∧
    ∃ r ∈ childAheadState.reports, r.ctime = 1 ∧ r.etime = 1 ∧ r.rtime = 1 ∧ r.wtime = -1 := by
  refine ⟨Sys.reachable_of_run ⟨1, 2, rfl⟩ (Option.some_get _).symm, by decide +kernel, ⟨1, 1, 1, -1, 1⟩, ?_, rfl, rfl, rfl, rfl⟩
  have hreports : childAheadState.reports = [⟨1, 1, 1, -1, 1⟩] := by decide +kernel
  rw [hreports]
  exact List.mem_singleton_self _

end OsLab
