import OsLab.BlockedCalls
import OsLab.Lemmas.MutexProcs
import OsLab.Lemmas.QueueRuns
import OsLab.Theorems.WaitxWrites

/-!
# Blocked calls and kill

The waits and `sys_msgrcv` look at `killed` before they sleep. The `while` of `sys_mutex_lock` does not: a process that is killed while
it waits for a mutex that stays locked goes back to sleep (`killed_sleeps_again`). That is the only turn of a killed process that sleeps;
the others end the call, unless `waitx` stores where the caller may not write or the queue of `msgrcv` is gone (`honours_kill_iff`).
-/

namespace OsLab

open Cmd

namespace BlockedAux

open WaitxAux LifeAux

variable {L : Layout} {A : Type*} [DecidableEq A] [Fintype A] {base : Nat} {s : Kern} {cur : Slot}

/-- A wait that returns has ended. -/
theorem waitLoopTurn_returns (v : Int) (s' : Kern) :
    waitLoopTurn (.ok (.returns v, s')) = .fails ∨ waitLoopTurn (.ok (.returns v, s')) = .gets := by
  by_cases hv : v = -1
  · exact .inl (if_pos hv)
  · exact .inr (if_neg hv)

/-- A killed caller of `waitx` ends its call exactly when what it stores for a zombie goes where it may write. -/
theorem waitx_ends_iff {a b : Int} (hR : Reapable L s cur) (hkilled : (s.table.proc cur).killed ≠ 0)
    (haddr : (WaitCall.waitx a b).UserAddrs) :
    (waitLoopTurn (waitxTurn L base cur a b s) = .fails ∨ waitLoopTurn (waitxTurn L base cur a b s) = .gets) ↔
      ∀ i d, waitScan (.waitx a b) cur s.table false slots = .zombie i → (s.table.proc cur).pgdir = some d →
        ∀ addr, addr = uintOf a ∨ addr = uintOf b → ∀ j < 4, Writable s.phys.mem d (addr + j) := by
  obtain ⟨d, hd, ha⟩ := hR.caller
  have hlow : ∀ addr, addr = uintOf a ∨ addr = uintOf b → addr + 4 ≤ KERNBASE := by
    rintro addr (rfl | rfl)
    · exact haddr.1
    · exact haddr.2
  cases hscan : waitScan (.waitx a b) cur s.table false slots with
  | none havekids =>
    have hrun : wp (waitxTurn L base cur a b) (fun r _ => r = .returns (-1)) (fun _ => False) s := by
      simp only [waitxTurn, wp_bind, wp_get, hscan, bne_iff_ne.mpr hkilled, Bool.or_true, if_true, wp_pure]
    obtain ⟨r, s', hrun, rfl⟩ := exists_of_wp hrun
    rw [hrun]
    exact ⟨fun _ i e hz => (by cases hz), fun _ => waitLoopTurn_returns _ _⟩
  | zombie i =>
    rw [waitxTurn_of_zombie hscan]
    constructor
    · intro hends j e hz he addr hor
      obtain rfl : d = e := Option.some.inj (hd.symm.trans he)
      cases hrun : waitxFound L base cur a b i s with
      | error err =>
        rw [hrun] at hends
        rcases hends with hends | hends <;> cases hends
      | ok r =>
        obtain ⟨-, hwa, hwb⟩ := wp_ok (waitxFound_some a b hd ha) hrun
        rcases hor with rfl | rfl
        · exact hwa haddr.1
        · exact hwb haddr.2
    · intro hw
      have hfound : wp (waitxFound L base cur a b i) _ (fun _ => False) s :=
        waitxFound_fits hR (waitScan_zombie hscan).1 hd hlow (hw i d rfl hd)
      obtain ⟨r, s', hrun, v, rfl, -⟩ := exists_of_wp hfound
      rw [hrun]
      exact waitLoopTurn_returns _ _

/-- A killed caller of `waitpid` always ends its call. -/
theorem waitpid_ends {pid : Int} (hR : Reapable L s cur) (hkilled : (s.table.proc cur).killed ≠ 0) :
    waitLoopTurn (waitpidTurn L cur pid s) = .fails ∨ waitLoopTurn (waitpidTurn L cur pid s) = .gets := by
  have hturn : wp (waitpidTurn L cur pid) (fun r _ => ∃ v, r = .returns v) (fun _ => False) s := by
    unfold waitpidTurn
    rw [wp_bind, wp_get]
    dsimp only
    cases hscan : waitScan (.waitpid pid) cur s.table false slots with
    | none havekids =>
      simp only [bne_iff_ne.mpr hkilled, Bool.or_true, if_true, wp_pure]
      exact ⟨_, rfl⟩
    | zombie i =>
      obtain ⟨f, e, hf, he, hman, hstack, hT⟩ := hR.child i (waitScan_zombie hscan).1
      rw [wp_bind]
      refine wp_mono (reapPages_frame (r := waitpidReap i s.table) hf he hman hstack hT) (fun v _ _ => ?_) fun _ h => h
      exact ⟨v, rfl⟩
  obtain ⟨r, s', hrun, v, rfl⟩ := exists_of_wp hturn
  rw [hrun]
  exact waitLoopTurn_returns _ _

/-- A killed receiver ends its call exactly when its queue is there: it has a message, or returns. -/
theorem recv_ends_iff {s : MsgSt Slot A} {q : QueueRef A} {c : RecvCall} (hkilled : s.killed cur = true) (hfault : s.fault = none)
    (hchains : ∀ a Q, queueAt s.page a = some Q → ∃ l, Chain (nextNode s.page) Q.head l none) :
    (recvLoopTurn s cur q c = .fails ∨ recvLoopTurn s cur q c = .gets) ↔ (s.deref q).isSome = true := by
  unfold recvLoopTurn msgrcvScan
  cases hd : s.deref q with
  | none => simp [MsgSt.fail]
  | some Q =>
    obtain ⟨l, hl⟩ := hchains q.page Q (queueAt_of_deref hd).1
    rcases hl.seek_cases (fun a => c.msgtyp == 0 || (nodeAt s.page a).any (·.msgtyp == c.msgtyp)) none
        (Nat.lt_succ_of_le hl.length_le_card) with ⟨l₁, a, l₂, rfl, -, -, hseek⟩ | ⟨-, hseek⟩
    · -- a cell of the list is a node
      obtain ⟨m, hm⟩ := Option.isSome_iff_exists.mp (hl.isSome_next (List.mem_append_right l₁ List.mem_cons_self))
      obtain ⟨n, hn, -⟩ := Option.map_eq_some_iff.mp hm
      simp only [seekNode, hseek, hn]
      simp [MsgSt.setPc, hfault]
    · simp only [seekNode, hseek, hkilled, if_true]
      split <;> simp [MsgSt.ret, MsgSt.setPc, hfault]

/-- A mutex that is locked is waited for, whatever `killed` says. -/
theorem lock_ends_iff (pid : Int) {id : MutexId} {t : MutexTable} :
    (lockLoopTurn pid id t = .fails ∨ lockLoopTurn pid id t = .gets) ↔ (t id).locked = false := by
  unfold lockLoopTurn mutexLockPass
  cases (t id).locked <;> simp

end BlockedAux

open BlockedAux

/-- The states of the systems are such states, in runs that keep memory in order and as long as no queue has been used after its removal. -/
def LoopState.ofRuns {L : Layout} {A : Type*} [DecidableEq A] [Fintype A] {base : Nat} {kern : Kern} {msgs : MsgSt Slot A}
    (mutexes : MutexTable) (hkern : (memSys L base).Reach (MemOk L base) kern) (hmsgs : msgSys.Reachable msgs)
    (hrun : msgs.fault = none) (hkilled : ∀ p, msgs.killed p = ((kern.table.proc p).killed != 0)) : LoopState L A where
  kern := kern
  msgs := msgs
  mutexes := mutexes
  killed_eq := hkilled
  reapable _ hp := reapable_of_memOk hkern hp
  running := hrun
  chains a _ hQ := by
    obtain ⟨_, nl, hi⟩ := queueInv_of_reachable hmsgs
    exact ⟨nl a, hi.heap.nodes hQ⟩

/-- In every kernel state, for every process in it and every one of the four calls: a turn that begins with `killed` set ends the call,
with -1 or with what it waited for, exactly when nothing else is in its way. -/
theorem honours_kill_iff {L : Layout} {A : Type*} [DecidableEq A] [Fintype A] (base : Nat) (k : LoopState L A) (cur : Slot)
    (l : BlockedCall A) (hcur : (k.kern.table.proc cur).state ≠ .unused)
    (haddr : ∀ a b, l = .waitx a b → (WaitCall.waitx a b).UserAddrs) :
    HonoursKill base k cur l ↔ ((k.kern.table.proc cur).killed ≠ 0 → l.CanEnd k cur) := by
  refine imp_congr_right fun hkilled => ?_
  cases l with
  | waitx a b => exact waitx_ends_iff (k.reapable cur hcur) hkilled (haddr a b rfl)
  | waitpid pid => exact iff_of_true (waitpid_ends (k.reapable cur hcur) hkilled) trivial
  | msgrcv q c => exact recv_ends_iff (by simpa [k.killed_eq] using hkilled) k.running k.chains
  | mutexLock id => exact lock_ends_iff _

/-- init holds the mutex, the child waits for it, and init kills the child, which is dispatched. -/
def childKilled : List MutexProcAct :=
  [.dispatch 0, .fork 0, .forkStack 0 (some 3), .forkCopy 0 (some 4), .forkPublish 0, .dispatch 1].map .proc ++
    [.create 0, .lock 0 (some 0), .lock 1 (some 0), .handOver 1, .proc (.kill 0 (some 2)), .proc (.dispatch 1)]

/-- The state in which the child is about to test the mutex again. -/
def childKilledState : MutexProcSt :=
  ((mutexProcSys sampleMutexAddrs).run (.boot 1 2) childKilled).get (by decide +kernel)

/-- The state after its test and the hand-over. -/
def childAsleepState : MutexProcSt :=
  ((mutexProcSys sampleMutexAddrs).run childKilledState [.retry 1, .handOver 1]).get (by decide +kernel)

namespace BlockedAux

theorem childKilled_table : (childKilledState.procs.table.proc 1).killed = 1 ∧ (childKilledState.procs.table.proc 1).state ≠ .unused ∧
    ∀ p, (childKilledState.procs.table.proc p).state ≠ .zombie ∧
      ((childKilledState.procs.table.proc p).state ≠ .unused → (childKilledState.procs.table.proc p).pgdir.isSome = true) := by
  decide +kernel

end BlockedAux

/-- The state before the test as the loops see it, without any message queue. No user page is mapped. -/
def childKilledLoops : LoopState sampleLayout (Fin 1) where
  kern := ⟨⟨[], fun _ _ => 0, false⟩, childKilledState.procs.table, fun _ => ⟨none, 0⟩, fun _ => none⟩
  msgs := { MsgSt.start Slot (Fin 1) with killed := fun p => (childKilledState.procs.table.proc p).killed != 0 }
  mutexes := childKilledState.mutexes
  killed_eq _ := rfl
  reapable p hp := by
    obtain ⟨d, hd⟩ := Option.isSome_iff_exists.mp ((childKilled_table.2.2 p).2 hp)
    have hbare : ∀ e v, ¬Mapped (fun _ _ => 0) e v := by
      intro e v
      simp [Mapped, pte, hasP]
    exact ⟨⟨d, hd, fun v _ hm => absurd hm (hbare d v)⟩, fun i hz => absurd hz (childKilled_table.2.2 i).1,
      fun i _ _ hz => absurd hz (childKilled_table.2.2 i).1⟩
  running := rfl
  chains a Q hQ := by cases hQ

/-- In the same state, a `waitpid` of the child for a process that is not its own ends. -/
theorem honours_kill_iff_waitpid : (childKilledLoops.kern.table.proc 1).killed = 1 ∧
    HonoursKill sampleAddrs.procs childKilledLoops 1 (.waitpid 7) :=
  ⟨childKilled_table.1, (honours_kill_iff sampleAddrs.procs childKilledLoops 1 (.waitpid 7) childKilled_table.2.1
    fun _ _ h => by cases h).mpr fun _ => trivial⟩

/-- The child has been killed and its turn puts it to sleep; after it, and the hand-over, it is `SLEEPING` in `sys_mutex_lock`. -/
theorem killed_sleeps_again : (mutexProcSys sampleMutexAddrs).Reachable childKilledState ∧
    (childKilledState.procs.table.proc 1).killed = 1 ∧ ¬ HonoursKill sampleAddrs.procs childKilledLoops 1 (.mutexLock 0) ∧
    BlockedCall.turn sampleAddrs.procs childKilledLoops 1 (.mutexLock 0) = .sleeps ∧
    ∃ s', (mutexProcSys sampleMutexAddrs).run childKilledState [.retry 1, .handOver 1] = some s' ∧
      (s'.procs.table.proc 1).state = .sleeping ∧ s'.place 1 = .waiting 0 ∧ (s'.procs.table.proc 1).killed = 1 := by
  have hkilled : (childKilledState.procs.table.proc 1).killed = 1 := childKilled_table.1
  have hsleeps : BlockedCall.turn sampleAddrs.procs childKilledLoops 1 (.mutexLock 0) = .sleeps := by
    have hlocked : (childKilledState.mutexes 0).locked = true := by decide +kernel
    simp only [BlockedCall.turn, lockLoopTurn, mutexLockPass, childKilledLoops, hlocked, if_true]
  refine ⟨Sys.reachable_of_run ⟨1, 2, rfl⟩ (Option.some_get _).symm, hkilled, fun hhonours => ?_, hsleeps, ?_⟩
  · have hne : (childKilledLoops.kern.table.proc 1).killed ≠ 0 := fun h => absurd (h.symm.trans hkilled) (by decide)
    rcases hhonours hne with h | h <;> rw [hsleeps] at h <;> cases h
  · exact ⟨childAsleepState, (Option.some_get _).symm, by decide +kernel, by decide +kernel, by decide +kernel⟩

end OsLab
