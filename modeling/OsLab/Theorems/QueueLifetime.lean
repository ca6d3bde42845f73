import OsLab.Lemmas.QueueRuns

/-!
# The lifetime of a message queue

`sys_msgctl` unlinks a queue, frees its nodes, wakes its sleepers and frees its page without asking whether another process
still has a pointer to it. A process that looked the queue up before goes on to use it: a receiver that slept on the queue and
is woken by the removal, a sender that was filling its node, or a `sys_msgget` that was about to read the id
(`rmid_under_sleeper`). When a queue is freed only while no other process has a pointer to it, and no message overruns the page
of its node, no process ever uses a queue that is gone (`queue_lifetime`).
-/

namespace OsLab

/-- In every run in which queues are freed only while no other process has a pointer to them, and messages fit their pages, no
process has used a queue that is gone, and every pointer to a queue that a process still has a use for is to a queue that is
there. -/
theorem queue_lifetime {P A : Type*} [DecidableEq P] [DecidableEq A] [Fintype A] {s : MsgSt P A}
    (hs : msgSys.Reach LifetimeOk s) :
    s.fault = none ∧ ∀ p q, (s.pc p).ref = some q → ∃ Q, s.deref q = some Q := by
  have hsafe := safeInv_of_reach hs
  exact ⟨hsafe.noFault, fun p q hq => hsafe.refs.deref hq⟩

/-- Process 0 creates a queue, on page 0, and process 1 goes to sleep in `sys_msgrcv` on it. -/
def sleeperMoves : List (MsgAct (Fin 2) (Fin 2)) :=
  [.get 0 (some 5) (some 0o1000) (some 0), .rcv 1 (some 1) (some 0) (some 16) (some 0) (some 0) 4096, .rcvScan 1]

/-- A receiver asleep on an empty queue. -/
def sleeperState : MsgSt (Fin 2) (Fin 2) :=
  (msgSys.run (MsgSt.start (Fin 2) (Fin 2)) sleeperMoves).get (by decide +kernel)

theorem sleeperState_run : msgSys.run (MsgSt.start (Fin 2) (Fin 2)) sleeperMoves = some sleeperState :=
  (Option.some_get _).symm

theorem sleeperState_reach : msgSys.Reach LifetimeOk sleeperState := by
  refine Sys.Reach.run (.init (MsgSt.start_boot _ _)) (fun a ha t => ?_) sleeperState_run
  simp only [sleeperMoves, List.mem_cons, List.not_mem_nil, or_false] at ha
  rcases ha with rfl | rfl | rfl <;> constructor <;> simp [MsgAct.sendCall]

/-- The receiver sleeps on a queue that is there. -/
theorem queue_lifetime_sleeper : (sleeperState.pc 1).ref.map (·.page) = some 0 ∧ sleeperState.fault = none ∧
    ∀ p q, (sleeperState.pc p).ref = some q → ∃ Q, sleeperState.deref q = some Q :=
  ⟨by decide +kernel, queue_lifetime sleeperState_reach⟩

/-- Process 0 removes the queue under the sleeper. -/
def removedState : MsgSt (Fin 2) (Fin 2) :=
  (msgSys.run (MsgSt.start (Fin 2) (Fin 2)) (sleeperMoves ++ [.ctl 0 (some 1) (some 0), .ctlDrain 0, .ctlFree 0])).get
    (by decide +kernel)

theorem removedState_reachable : msgSys.Reachable removedState :=
  Sys.reachable_of_run (MsgSt.start_boot _ _) (Option.some_get _).symm

/-- The page of the queue is free, the receiver is awake with a pointer to it, and its next step is to take the lock of the
queue that is gone. -/
theorem rmid_under_sleeper : msgSys.Reachable removedState ∧ (removedState.pc 1).ref.map (·.page) = some 0 ∧
    queueAt removedState.page 0 = none ∧
    ∃ s', msgStep removedState (.rcvScan 1) = some s' ∧ s'.fault = some .freedQueue := by
  refine ⟨removedState_reachable, by decide +kernel, by decide +kernel, ?_⟩
  have h : (msgStep removedState (.rcvScan 1)).map (·.fault) = some (some .freedQueue) := by decide +kernel
  exact Option.map_eq_some_iff.mp h

end OsLab
