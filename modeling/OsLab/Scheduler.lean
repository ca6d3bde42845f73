import OsLab.ProcRuns

/-!
# The scheduler

`scheduler` runs on every processor. It takes `ptable.lock`, walks over the table from the first slot to the last, and
switches to each `RUNNABLE` process it comes to; the process gives the lock back, and takes it again before it switches to
the scheduler, which goes on with the next slot. `schedSys` is `procSys` with the loops of the processors in the place of the
dispatch of any process.
-/

namespace OsLab

/-- `NCPU`: the processors. -/
abbrev NCPU : Nat := 8

abbrev Cpu := Fin NCPU

/-- Where a processor is in `scheduler`. -/
inductive LoopPc where
  /-- Outside the inner loop, without the lock. -/
  | idle
  /-- In the inner loop, with the lock, and with `p` at slot `k`. -/
  | scan (k : Nat)
  /-- In `swtch`: the processor runs this process. -/
  | switched (p : Slot)
  deriving DecidableEq, Repr

/-- The processes, and where each processor is. -/
structure SchedSt where
  procs : ProcSt
  cpu : Cpu → LoopPc

/-- A step of a loop of `scheduler`, or one of the processes and the timer. -/
inductive SchedAct where
  /-- The processor takes the lock and starts the inner loop. -/
  | acquire (c : Cpu)
  /-- One turn of the inner loop, or its end. -/
  | turn (c : Cpu)
  | proc (a : ProcAct)

namespace SchedSt

/-- No scheduler holds `ptable.lock`. -/
def LockFree (s : SchedSt) : Prop := ∀ c k, s.cpu c ≠ .scan k

/-- A processor whose process has given it up is back in the inner loop, at the next slot. -/
def settle (s : SchedSt) : SchedSt :=
  { s with cpu := fun c =>
      match s.cpu c with
      | .switched p => if (s.procs.table.proc p).state = .running then .switched p else .scan (p + 1)
      | pc => pc }

end SchedSt

/-- No scheduler holds the lock, as a check. -/
def LoopPc.scanning : LoopPc → Bool
  | .scan _ => true
  | _ => false

instance (s : SchedSt) : Decidable s.LockFree :=
  decidable_of_iff (∀ c, (s.cpu c).scanning = false) (by
    refine forall_congr' fun c => ?_
    cases s.cpu c <;> simp [LoopPc.scanning])

/-- The steps that take `ptable.lock`. The others build a child that nobody else looks at, close files, or set the `killed` of the
process that has trapped. -/
def ProcAct.locks : ProcAct → Bool
  | .forkStack _ _ => false
  | .forkCopy _ _ => false
  | .exitClose _ => false
  | .fault _ => false
  | _ => true

/-- One step: `none` when it cannot be taken, or panics. -/
def schedStep (A : KernelAddrs) (s : SchedSt) : SchedAct → Option SchedSt
  | .acquire c =>
    if s.cpu c = .idle ∧ s.LockFree then some { s with cpu := Function.update s.cpu c (.scan 0) } else none
  | .turn c =>
    match s.cpu c with
    | .scan k =>
      if h : k < NPROC then
        if (s.procs.table.proc ⟨k, h⟩).state = .runnable then
          (procStep A s.procs (.dispatch ⟨k, h⟩)).map fun t =>
            SchedSt.settle { procs := t, cpu := Function.update s.cpu c (.switched ⟨k, h⟩) }
        else some { s with cpu := Function.update s.cpu c (.scan (k + 1)) }
      else some { s with cpu := Function.update s.cpu c .idle }
    | _ => none
  -- only the loops dispatch
  | .proc (.dispatch _) => none
  | .proc a =>
    if a.locks = true → s.LockFree then (procStep A s.procs a).map fun t => SchedSt.settle { s with procs := t } else none

/-- The processor `c` is about to switch to `p`. -/
def Switches (s : SchedSt) (c : Cpu) (p : Slot) : Prop :=
  s.cpu c = .scan p ∧ (s.procs.table.proc p).state = .runnable

/-- No `RUNNABLE` process has a smaller priority number than `p`. -/
def Governed (t : Table) (p : Slot) : Prop :=
  ∀ q, (t.proc q).state = .runnable → (t.proc p).priority ≤ (t.proc q).priority

/-- The slot of the child that a `fork` is building. -/
def ProcPc.child : ProcPc → Option Slot
  | .forkStack np _ => some np
  | .forkCopy np _ => some np
  | .forkPublish np => some np
  | _ => none

/-- The priority that a `fork2` is yet to give to its child. -/
def ProcPc.asked : ProcPc → Option Int
  | .forkStack _ prio => prio
  | .forkCopy _ prio => prio
  | _ => none

/-- Every priority of the processes, and every one that a call in progress is to give, is in `B`; a `waitx` in progress
writes to user space. -/
structure PrioOk (B : Int → Prop) (s : ProcSt) : Prop where
  table : ∀ i, (s.table.proc i).state ≠ .unused → B (s.table.proc i).priority
  child : ∀ p np, (s.pc p).child = some np → B (s.table.proc np).priority
  asked : ∀ p a, (s.pc p).asked = some a → B a
  addrs : ∀ p w, s.pc p = .waiting w → w.UserAddrs

/-- The default priority, or one of `A`. -/
def OrDefault (A : Int → Prop) (a : Int) : Prop := a = 60 ∨ A a

/-- The processes and the processors in any state in which the priorities are the default or in `A`. -/
def schedSys (K : KernelAddrs) (A : Int → Prop) : Sys SchedSt SchedAct where
  init s := PrioOk (OrDefault A) s.procs
  step := schedStep K

/-- `set_priority` and `fork2` are called with the default priority or one of `A`, and `waitx` with addresses in user space. -/
def PrioCalls (A : Int → Prop) (s : SchedSt) : SchedAct → Prop
  | .proc (.setPriority _ _ (some a)) => OrDefault A a
  | .proc (.fork2 _ (some a)) => OrDefault A a
  | .proc a => UserWaitx s.procs a
  | _ => True

end OsLab
