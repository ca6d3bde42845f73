import OsLab.Proc
import OsLab.Lib.Run

/-!
# Runs of the process calls

`procSys` interleaves the functions of `OsLab.Proc`. A process takes its own steps only while it is `RUNNING`; where it is
in the code of a call that takes several steps is its `ProcPc`. The scheduler may dispatch any `RUNNABLE` process, on any
number of processors. A label carries what the process passes to the call and what the page allocator answers.

Beside the table the state keeps a record of what has happened, newest first, and numbers the processes: every success of
the critical section of `allocproc` starts an instance, so that the lives of a reused slot can be told apart. A panic stops
the machine: the step that would panic is not taken.
-/

namespace OsLab

/-- The kernel addresses that the steps compare with or store to. -/
structure KernelAddrs where
  /-- `&ptable.proc[0]`. -/
  procs : Nat
  /-- `&ticks`. -/
  ticks : Nat

/-- Kernel addresses as a link of the kernel may give them. -/
def sampleAddrs : KernelAddrs := { procs := 0x80112d54, ticks := 0x801154a0 }

/-- Where a process is in the code. -/
inductive ProcPc where
  /-- In user space, or in the kernel outside the places below. -/
  | user
  /-- In `allocproc`, after the release and before `kalloc`; `prio` is the argument of `fork2`. -/
  | forkStack (np : Slot) (prio : Option Int)
  /-- In `fork` or `fork2`, before `copyuvm`. -/
  | forkCopy (np : Slot) (prio : Option Int)
  /-- In `fork` or `fork2`, before the second `acquire`. -/
  | forkPublish (np : Slot)
  /-- In `exit`, with the files closed. -/
  | exiting
  /-- In the `sleep` of a wait. -/
  | waiting (w : WaitCall)
  deriving DecidableEq, Repr

/-- What has happened, for the record. -/
inductive ProcEvent where
  /-- `allocproc` took a slot for a new instance and gave it this pid. -/
  | born (inst : Nat) (pid : Int)
  /-- The instance got its kernel stack. -/
  | stack (inst : Nat) (f : Frame)
  /-- The instance got its page directory. -/
  | space (inst : Nat) (d : Frame)
  /-- `fork` made the instance `RUNNABLE`, with these values of `pid` and `killed`. -/
  | published (inst : Nat) (pid killed : Int)
  /-- `fork` gave the instance up for lack of memory. -/
  | failed (inst : Nat)
  /-- `kill(pid)` or `sigkill(pid)` was executed. -/
  | killCall (pid : Int)
  /-- `kfree` of the instance's kernel stack. -/
  | kfree (inst : Nat) (f : Frame)
  /-- `freevm` of the instance's page directory. -/
  | freevm (inst : Nat) (d : Frame)
  /-- The wait call `w` of `cur` reaped slot `i` and returned `ret`. -/
  | reaped (cur : Slot) (w : WaitCall) (i : Slot) (inst : Nat) (ret : Int)
  deriving DecidableEq, Repr

/-- The table, where each process is, which instance each slot holds, and the record. -/
structure ProcSt where
  table : Table
  pc : Slot → ProcPc
  inst : Slot → Nat
  allocs : Nat
  log : List ProcEvent

/-- The state after `userinit`. -/
def ProcSt.boot (k d : Frame) : ProcSt where
  table := userinit k d
  pc := fun _ => .user
  inst := fun _ => 0
  allocs := 1
  log := [.space 0 d, .stack 0 k, .born 0 1]

/-- The steps of the processes, the scheduler and the timer. -/
inductive ProcAct where
  | dispatch (p : Slot)
  | yield (p : Slot)
  | sleep (p : Slot) (addr : Nat)
  | wakeup (addr : Nat)
  | tick
  | updateRtime
  | fork (p : Slot)
  | fork2 (p : Slot) (prio : Arg)
  | forkStack (p : Slot) (k : Option Frame)
  | forkCopy (p : Slot) (d : Option Frame)
  | forkPublish (p : Slot)
  | exitClose (p : Slot)
  | exit (p : Slot)
  | wait (p : Slot)
  | waitx (p : Slot) (wtimeAddr rtimeAddr : Arg)
  | waitpid (p : Slot) (pid : Arg)
  | kill (p : Slot) (pid : Arg)
  | sigkill (p : Slot) (pid : Arg)
  | setPriority (p : Slot) (pid prio : Arg)
  | fault (p : Slot)

namespace ProcSt

/-- The process is running at this place. -/
def At (s : ProcSt) (p : Slot) (c : ProcPc) : Prop := (s.table.proc p).state = .running ∧ s.pc p = c

instance (s : ProcSt) (p : Slot) (c : ProcPc) : Decidable (s.At p c) := inferInstanceAs (Decidable (_ ∧ _))

/-- A process put at a place of the code. -/
def setPc (s : ProcSt) (p : Slot) (c : ProcPc) : ProcSt := { s with pc := Function.update s.pc p c }

/-- `fork` or `fork2` by `p` up to the release in `allocproc`; without a free slot it returns -1. -/
def beginFork (s : ProcSt) (p : Slot) (prio : Option Int) : ProcSt :=
  match allocprocClaim s.table with
  | none => s
  | some (np, t) =>
    { table := t
      pc := Function.update s.pc p (.forkStack np prio)
      inst := Function.update s.inst np s.allocs
      allocs := s.allocs + 1
      log := .born s.allocs s.table.nextpid :: s.log }

/-- `p` gives up the child `np`. -/
def giveUp (s : ProcSt) (p np : Slot) (t : Table) : ProcSt :=
  { s with table := t, pc := Function.update s.pc p .user, log := .failed (s.inst np) :: s.log }

/-- One turn of the loop of a wait by `cur`. -/
def waitTurn (A : KernelAddrs) (s : ProcSt) (cur : Slot) (w : WaitCall) : Option ProcSt :=
  match waitPass A.procs w cur s.table with
  | none => none
  | some .fail => some (s.setPc cur .user)
  | some .sleep => some (({ s with table := sleepOn cur (.proc cur) s.table } : ProcSt).setPc cur (.waiting w))
  | some (.reaped i r) =>
    match r.kstack, r.pgdir with
    | some f, some d =>
      let log := .reaped cur w i (s.inst i) r.ret :: .freevm (s.inst i) d :: .kfree (s.inst i) f :: s.log
      some (({ s with table := r.table, log := log } : ProcSt).setPc cur .user)
    -- `kfree` or `freevm` of a null pointer panics
    | _, _ => none

end ProcSt

open ProcSt

/-- One step: `none` when it cannot be taken, or panics. -/
def procStep (A : KernelAddrs) (s : ProcSt) : ProcAct → Option ProcSt
  | .dispatch p =>
    if (s.table.proc p).state = .runnable then
      let s' : ProcSt := { s with table := OsLab.dispatch p s.table }
      match s.pc p with
      -- the lock is still held when `sleep` returns to the loop
      | .waiting w => s'.waitTurn A p w
      | _ => some s'
    else none
  | .yield p => if (s.table.proc p).state = .running then some { s with table := OsLab.yield p s.table } else none
  | .sleep p addr =>
    if s.At p .user ∨ s.At p .exiting then some { s with table := sleepOn p (.other addr) s.table } else none
  | .wakeup addr => some { s with table := wakeup1 (some (.other addr)) s.table }
  | .tick => some { s with table := OsLab.tick A.ticks s.table }
  | .updateRtime => some { s with table := OsLab.updateRtime s.table }
  | .fork p => if s.At p .user then some (s.beginFork p none) else none
  | .fork2 p a =>
    if s.At p .user then
      match a with
      | none => some s
      | some prio => if prio < 0 ∨ prio > 100 then some s else some (s.beginFork p (some prio))
    else none
  | .forkStack p k =>
    match s.pc p with
    | .forkStack np prio =>
      if (s.table.proc p).state = .running then
        match k with
        | none => some (s.giveUp p np (allocprocStack np none s.table))
        | some f =>
          some { s with
            table := allocprocStack np (some f) s.table
            pc := Function.update s.pc p (.forkCopy np prio)
            log := .stack (s.inst np) f :: s.log }
      else none
    | _ => none
  | .forkCopy p d =>
    match s.pc p with
    | .forkCopy np prio =>
      if (s.table.proc p).state = .running then
        match d with
        | none =>
          match (s.table.proc np).kstack with
          | none => none
          | some f =>
            some (({ s with log := .kfree (s.inst np) f :: s.log } : ProcSt).giveUp p np (forkFail np s.table))
        | some d =>
          let t := match prio with
            | none => OsLab.forkCopy p np d s.table
            | some prio => fork2Copy p np prio d s.table
          some { s with
            table := t
            pc := Function.update s.pc p (.forkPublish np)
            log := .space (s.inst np) d :: s.log }
      else none
    | _ => none
  | .forkPublish p =>
    match s.pc p with
    | .forkPublish np =>
      if (s.table.proc p).state = .running then
        some { s with
          table := OsLab.forkPublish np s.table
          pc := Function.update s.pc p .user
          log := .published (s.inst np) (s.table.proc np).pid (s.table.proc np).killed :: s.log }
      else none
    | _ => none
  | .exitClose p =>
    if s.At p .user ∧ p ≠ s.table.initproc then
      some (({ s with table := OsLab.exitClose p s.table } : ProcSt).setPc p .exiting)
    else none
  | .exit p =>
    -- the next process of the slot starts in `forkret`, outside every place of the calls
    if s.At p .exiting then some (({ s with table := exitTable p s.table } : ProcSt).setPc p .user) else none
  | .wait p => if s.At p .user then s.waitTurn A p .wait else none
  | .waitx p a b =>
    if s.At p .user then
      match a, b with
      | some a, some b => s.waitTurn A p (.waitx a b)
      | _, _ => some s
    else none
  | .waitpid p a =>
    if s.At p .user then
      match a with
      | some pid => s.waitTurn A p (.waitpid pid)
      | none => some s
    else none
  | .kill p a =>
    if s.At p .user then
      some { s with table := (sysKill a s.table).2, log := (a.map .killCall).toList ++ s.log }
    else none
  | .sigkill p a =>
    if s.At p .user then
      some { s with table := (sysSigkill a s.table).2, log := (a.map .killCall).toList ++ s.log }
    else none
  | .setPriority p a b =>
    if s.At p .user then some { s with table := (sysSetPriority a b s.table).2 } else none
  | .fault p =>
    -- `trap` marks a process that faults in user space
    if s.At p .user then some { s with table := s.table.modify p fun q => { q with killed := 1 } } else none

/-- The process calls of any processes, in any order of their steps. -/
def procSys (A : KernelAddrs) : Sys ProcSt ProcAct where
  init s := ∃ k d, s = .boot k d
  step := procStep A

/-! ## What the record says -/

/-- The instances whose life has ended: reaped, or given up by `fork`. -/
def endedInsts : List ProcEvent → List Nat
  | [] => []
  | .failed n :: l => n :: endedInsts l
  | .reaped _ _ _ n _ :: l => n :: endedInsts l
  | _ :: l => endedInsts l

/-- The instances that a wait has reaped. -/
def reapedInsts : List ProcEvent → List Nat
  | [] => []
  | .reaped _ _ _ n _ :: l => n :: reapedInsts l
  | _ :: l => reapedInsts l

/-- The kernel stacks freed, with the instance each belonged to. -/
def kfrees : List ProcEvent → List (Nat × Frame)
  | [] => []
  | .kfree n f :: l => (n, f) :: kfrees l
  | _ :: l => kfrees l

/-- The page directories freed, with the instance each belonged to. -/
def freevms : List ProcEvent → List (Nat × Frame)
  | [] => []
  | .freevm n d :: l => (n, d) :: freevms l
  | _ :: l => freevms l

/-- `kill(pid)` or `sigkill(pid)` has been executed since the instance was allocated. -/
def killedSince (n : Nat) (pid : Int) : List ProcEvent → Bool
  | [] => false
  | .born m _ :: l => if m = n then false else killedSince n pid l
  | .killCall q :: l => q = pid || killedSince n pid l
  | _ :: l => killedSince n pid l

/-! ## Conditions on the steps -/

/-- `waitx` is called with addresses in user space only. -/
def UserWaitx (_ : ProcSt) : ProcAct → Prop
  | .waitx _ (some a) (some b) => (WaitCall.waitx a b).UserAddrs
  | _ => True

/-! ## A run -/

/-- init forks a child, which exits. -/
def childExits : List ProcAct :=
  [.dispatch 0, .fork 0, .forkStack 0 (some 3), .forkCopy 0 (some 4), .forkPublish 0, .dispatch 1, .exitClose 1, .exit 1]

/-- The state in which the child is a zombie. -/
def zombieState : ProcSt := ((procSys sampleAddrs).run (.boot 1 2) childExits).get (by decide +kernel)

theorem zombieState_run : (procSys sampleAddrs).run (.boot 1 2) childExits = some zombieState := (Option.some_get _).symm

theorem zombieState_reach : (procSys sampleAddrs).Reach UserWaitx zombieState := by
  refine Sys.Reach.run (.init ⟨1, 2, rfl⟩) ?_ zombieState_run
  simp [childExits, UserWaitx]

end OsLab
