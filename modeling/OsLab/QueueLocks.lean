import OsLab.Spill

/-!
# The message calls and the lock of a queue

In `msgSys` a critical section under `queue->lock` is one step. `queueLockSys` takes it apart: a process takes the lock, changes the
queue, calls `wakeup`, and releases the lock, each in a step of its own; a receiver that finds nothing keeps the lock until `sleep`
has taken `ptable.lock` (the hand-over), and is asleep from then on. Between these steps any other process may take any of its own
that does not need the lock. No queue is removed. Messages are of any size, as in `spillSys`.
-/

namespace OsLab

/-- Where a process is between `acquire` and `release` of `queue->lock`. -/
inductive LockStage (A : Type*) where
  /-- It does not have the lock of a queue. -/
  | outside
  /-- It has taken the lock. -/
  | entered (q : QueueRef A)
  /-- In `sys_msgsnd`, with the node linked: about to call `wakeup`. -/
  | waking (q : QueueRef A)
  /-- In `sys_msgrcv`, with nothing found: about to call `sleep`. -/
  | stalling (q : QueueRef A)
  /-- About to release the lock. -/
  | leaving (q : QueueRef A)

/-- The queue whose lock the process has. -/
def LockStage.queue {A : Type*} : LockStage A → Option (QueueRef A)
  | .outside => none
  | .entered q => some q
  | .waking q => some q
  | .stalling q => some q
  | .leaving q => some q

/-- The queue whose lock the process is about to take. -/
def MsgPc.lockRef {A : Type*} : MsgPc A → Option (QueueRef A)
  | .appending q _ _ => some q
  | .receiving q _ => some q
  | _ => none

/-- The queues and the processes, who holds the lock of the queue on each page, and where the holders are. -/
structure QueueLockSt (P A : Type*) where
  msg : MsgSt P A
  holder : A → Option P
  stage : P → LockStage A

/-- The steps outside the locks of the queues, and those inside. -/
inductive QueueLockAct (P A : Type*) where
  | call (act : MsgAct P A)
  | acquire (p : P)
  | change (p : P)
  | wakeup (p : P)
  | sleep (p : P)
  | release (p : P)

/-- Every process outside the calls, no queue, and no lock held. -/
structure QueueLockSt.Boot {P A : Type*} (s : QueueLockSt P A) : Prop where
  msg : s.msg.Boot
  holder : ∀ a, s.holder a = none
  stage : ∀ p, s.stage p = .outside

/-- Every process outside the calls, and every page free. -/
def QueueLockSt.start (P A : Type*) : QueueLockSt P A :=
  { msg := .start P A, holder := fun _ => none, stage := fun _ => .outside }

section System

variable {P A : Type*} [DecidableEq P] [DecidableEq A]

namespace QueueLockSt

/-- A process put at a stage. -/
def setStage (s : QueueLockSt P A) (p : P) (g : LockStage A) : QueueLockSt P A := { s with stage := Function.update s.stage p g }

/-- The lock of the queue on a page gets another holder. -/
def setHolder (s : QueueLockSt P A) (a : A) (p : Option P) : QueueLockSt P A := { s with holder := Function.update s.holder a p }

/-- The step outside the locks may be taken: its process has the lock of no queue, it is none of the critical sections, and no
removal. -/
def admits (s : QueueLockSt P A) : MsgAct P A → Bool
  | .get p _ _ _ => (s.stage p).queue.isNone
  | .getId p => (s.stage p).queue.isNone
  | .snd p _ _ _ _ _ _ _ => (s.stage p).queue.isNone
  | .sndAlloc p _ _ => (s.stage p).queue.isNone
  | .sndAppend _ => false
  | .rcv p _ _ _ _ _ _ => (s.stage p).queue.isNone
  | .rcvScan _ => false
  | .deliver p _ => (s.stage p).queue.isNone
  | .ctl _ _ _ => false
  | .ctlDrain _ => false
  | .ctlFree _ => false
  | .kill _ => true
  | .take _ => true
  | .give _ => true

end QueueLockSt

/-- The critical section of `sys_msgsnd` up to the call of `wakeup`. The value that the call will return is recorded with it. -/
def msgsndInsert (s : MsgSt P A) (p : P) (q : QueueRef A) (node : A) (c : SendCall) : MsgSt P A :=
  match s.deref q with
  | none => s.fail .freedQueue
  | some Q =>
    match msgsndAppend s.page q.page Q node with
    | .error f => s.fail f
    | .ok h => ({ s with page := h, log := s.log ++ [.sent p q.inst c.msg] } : MsgSt P A).ret p 0

variable [Fintype A] (M : PageMap A)

/-- What a process does with the lock of the queue in hand. -/
def queueLockChange (s : QueueLockSt P A) (p : P) (q : QueueRef A) : Option (QueueLockSt P A) :=
  match s.msg.pc p with
  | .appending _ f c => some ({ s with msg := msgsndInsert s.msg p q f c }.setStage p (.waking q))
  | .receiving _ c =>
    let t := msgrcvScan s.msg p q c
    match t.pc p with
    -- the turn of the loop ends in `sleep`, whose hand-over is a step of its own
    | .asleep _ _ => some (s.setStage p (.stalling q))
    | _ => some ({ s with msg := t }.setStage p (.leaving q))
  | _ => none

/-- One step of a run that no fault has ended: `none` when the process is not at a place where it could take it, or would have to
wait for the lock. -/
def queueLockMove (s : QueueLockSt P A) : QueueLockAct P A → Option (QueueLockSt P A)
  | .call act => if s.admits act then (spillStep M s.msg act).map fun t => { s with msg := t } else none
  | .acquire p =>
    match s.stage p, (s.msg.pc p).lockRef with
    | .outside, some q =>
      match s.msg.deref q with
      | none => some { s with msg := s.msg.fail .freedQueue }
      | some _ => if s.holder q.page = none then some ((s.setHolder q.page (some p)).setStage p (.entered q)) else none
    | _, _ => none
  | .change p =>
    match s.stage p with
    | .entered q => queueLockChange s p q
    | _ => none
  | .wakeup p =>
    match s.stage p with
    | .waking q => some ({ s with msg := s.msg.wakeup q.page }.setStage p (.leaving q))
    | _ => none
  | .sleep p =>
    match s.stage p, s.msg.pc p with
    | .stalling q, .receiving _ c =>
      some (({ s with msg := s.msg.setPc p (.asleep q c) }.setHolder q.page none).setStage p .outside)
    | _, _ => none
  | .release p =>
    match s.stage p with
    | .leaving q => some ((s.setHolder q.page none).setStage p .outside)
    | _ => none

/-- One step. -/
def queueLockStep (s : QueueLockSt P A) (a : QueueLockAct P A) : Option (QueueLockSt P A) :=
  match s.msg.fault with
  | none => queueLockMove M s a
  | some _ => none

/-- The calls of `sys_msgget`, `sys_msgsnd` and `sys_msgrcv` by any processes, in any order of their steps. -/
def queueLockSys : Sys (QueueLockSt P A) (QueueLockAct P A) where
  init := QueueLockSt.Boot
  step := queueLockStep M

end System

/-- No message is sent that does not fit the page of its node. -/
def MessagesFit {P A : Type*} (_ : QueueLockSt P A) (act : QueueLockAct P A) : Prop :=
  ∀ b d, act = .call b → b.sendCall = some d → d.msgsz ≤ NODEROOM

end OsLab
