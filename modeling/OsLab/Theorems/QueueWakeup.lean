import OsLab.Lemmas.QueueLocks
import OsLab.Lemmas.MailView

/-!
# The sleepers on a message queue

A receiver keeps `queue->lock` from its scan of the queue to the hand-over in `sleep`, and a sender from the linking of its node to
the wakeup. So while the lock of a queue is free, its sleepers are those that want nothing of what is in it, as long as a message in
it stays what it is. A message too long for the page of its node may be written over another one, and nobody is woken for that.
-/

namespace OsLab

open QueueLockAux

theorem QueueLockSt.start_boot (P A : Type*) : (QueueLockSt.start P A).Boot := ⟨MsgSt.start_boot P A, fun _ => rfl, fun _ => rfl⟩

/-- In every state of every run of `sys_msgget`, `sys_msgsnd` and `sys_msgrcv` in which messages fit their pages, the queue that a
process sleeps on is there, and if its lock is free then no message in it is of the type that the process asks for. -/
theorem msgrcv_sleeper_unmatched {P A : Type*} [DecidableEq P] [DecidableEq A] [Fintype A] {M : PageMap A} {s : QueueLockSt P A}
    (h : (queueLockSys M).Reach MessagesFit s) {p : P} {q : QueueRef A} {c : RecvCall} (hp : s.msg.pc p = .asleep q c)
    (hfree : s.holder q.page = none) :
    (∃ Q, s.msg.deref q = some Q) ∧ ∀ m ∈ messages s.msg q.page, ¬(c.msgtyp = 0 ∨ m.typ = c.msgtyp) := by
  obtain ⟨ql, nl, hI⟩ := lockInv_of_reach h
  obtain ⟨Q, hd⟩ := hI.refs.deref (p := p) (q := q) (by rw [hp]; rfl)
  refine ⟨⟨Q, hd⟩, fun m hm hmatch => hI.not_wanted hp hfree ?_⟩
  rw [hI.queues.messages_eq (queueAt_of_deref hd).1, List.mem_filterMap] at hm
  obtain ⟨f, hf, hm⟩ := hm
  obtain ⟨n, hn, rfl⟩ := Option.map_eq_some_iff.mp hm
  exact ⟨f, hf, n, hn, hmatch⟩

/-- A turn of the loop of a receiver that finds nothing. -/
def fruitlessTurn (p : Fin 2) : List (QueueLockAct (Fin 2) (Fin 4)) := [.acquire p, .change p, .sleep p]

/-- The critical section of a sender. -/
def senderTurn (p : Fin 2) : List (QueueLockAct (Fin 2) (Fin 4)) := [.acquire p, .change p, .wakeup p, .release p]

/-- Process 1 sleeps for a message of type 7; process 0 sends one of type 8, and its wakeup finds process 1, which looks again and
sleeps again. -/
def sleepsAgain : List (QueueLockAct (Fin 2) (Fin 4)) :=
  [.call (.get 0 (some 5) (some 0o1000) (some 3)), .call (.rcv 1 (some 1) (some 64) (some 8) (some 7) (some 0) 4096)] ++
    fruitlessTurn 1 ++
    [.call (.snd 0 (some 1) (some 0) (some 2) (some 0) 4096 8 fun _ => 65), .call (.sndAlloc 0 (some 2) fun _ => 0)] ++
    senderTurn 0 ++ fruitlessTurn 1

/-- The state after that. -/
def sleepsAgainState : QueueLockSt (Fin 2) (Fin 4) :=
  ((queueLockSys samplePages).run (.start (Fin 2) (Fin 4)) sleepsAgain).get (by decide +kernel)

theorem msgrcv_sleeper_unmatched_again : ∃ q c, sleepsAgainState.msg.pc 1 = .asleep q c ∧
    sleepsAgainState.holder q.page = none ∧ messages sleepsAgainState.msg q.page = [⟨8, [65, 65]⟩] ∧
      ∀ m ∈ messages sleepsAgainState.msg q.page, ¬(c.msgtyp = 0 ∨ m.typ = c.msgtyp) := by
  have hreach : (queueLockSys samplePages).Reach MessagesFit sleepsAgainState := by
    refine Sys.Reach.run (.init (QueueLockSt.start_boot _ _)) (fun a ha t => ?_) (Option.some_get _).symm
    rintro b d rfl hd
    simp only [sleepsAgain, fruitlessTurn, senderTurn, List.cons_append, List.nil_append, List.mem_cons, QueueLockAct.call.injEq,
      reduceCtorEq, List.not_mem_nil, or_false, false_or] at ha
    rcases ha with rfl | rfl | rfl | rfl
    · cases hd
    · cases hd
    · cases hd
      decide
    · cases hd
  have hp : sleepsAgainState.msg.pc 1 = .asleep ⟨3, 0⟩ ⟨some 64, 8, 7, 0, 4096⟩ := rfl
  have hfree : sleepsAgainState.holder 3 = none := by decide +kernel
  exact ⟨_, _, hp, hfree, by decide +kernel, (msgrcv_sleeper_unmatched hreach hp hfree).2⟩

/-- Process 0 sends a message of type 8 to the first of two queues, and process 1 sleeps there for one of type 7. Then process 0 sends
4092 bytes to the other queue: the node is on the page before that of the first message, and the last eight bytes are written over
`next` and `msgtyp` of that message. -/
def spillsOverMessage : List (QueueLockAct (Fin 2) (Fin 4)) :=
  [.call (.get 0 (some 5) (some 0o1000) (some 3)), .call (.get 0 (some 6) (some 0o1000) (some 2)),
    .call (.snd 0 (some 1) (some 0) (some 2) (some 0) 8192 8 fun _ => 65), .call (.sndAlloc 0 (some 1) fun _ => 0)] ++
    senderTurn 0 ++ [.call (.rcv 1 (some 1) (some 64) (some 8) (some 7) (some 0) 4096)] ++ fruitlessTurn 1 ++
    [.call (.snd 0 (some 2) (some 0) (some 4092) (some 0) 8192 9 fun j => if j = 4088 then 7 else 0),
      .call (.sndAlloc 0 (some 0) fun _ => 0)] ++
    senderTurn 0

/-- The state after that. -/
def spillsOverMessageState : QueueLockSt (Fin 2) (Fin 4) :=
  ((queueLockSys samplePages).run (.start (Fin 2) (Fin 4)) spillsOverMessage).get (by decide +kernel)

/-- Process 1 sleeps for a message of type 7, with one in its queue, and nobody will wake it. -/
theorem msgrcv_sleeper_matched : (queueLockSys samplePages).Reachable spillsOverMessageState ∧
    spillsOverMessageState.msg.fault = none ∧ spillsOverMessageState.holder 3 = none ∧
      (∃ c, spillsOverMessageState.msg.pc 1 = .asleep ⟨3, 0⟩ c ∧ c.msgtyp = 7) ∧
      messages spillsOverMessageState.msg 3 = [⟨7, [65, 65]⟩] ∧ ∀ p, spillsOverMessageState.stage p = .outside := by
  refine ⟨Sys.reachable_of_run (QueueLockSt.start_boot _ _) (Option.some_get _).symm, by decide +kernel, by decide +kernel,
    ⟨⟨some 64, 8, 7, 0, 4096⟩, rfl, rfl⟩, by decide +kernel, ?_⟩
  intro p
  match p with
  | 0 => rfl
  | 1 => rfl

end OsLab
