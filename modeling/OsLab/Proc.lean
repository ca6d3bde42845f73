import OsLab.Machine
import Mathlib.Data.List.FinRange
import Mathlib.Logic.Function.Basic

/-!
# The process table

`struct proc`, `ptable` and the functions over it (`proc.c` and the process calls of `sysproc.c`). Each definition is the
body of a function, or the part of it between two points where another processor may come in: what stands between
`acquire` and `release` of `ptable.lock` is one function of the table, and a call that gives the lock up (`fork`, which
builds the child without it; `exit`, which closes its files first; the waits, which sleep) is cut there.

A pointer into `ptable.proc` is a slot number, the null pointer is `none`, and what a call gets from the page allocator is
an argument of the function.
-/

namespace OsLab

/-- A pointer to an element of `ptable.proc`. -/
abbrev Slot := Fin NPROC

/-- `enum procstate`. -/
inductive ProcState where
  | unused
  | embryo
  | sleeping
  | runnable
  | running
  | zombie
  deriving DecidableEq, Repr

/-- An address that processes sleep on: a slot of the table for `wait` and its kin, another kernel address otherwise. -/
inductive Chan where
  | proc (p : Slot)
  | other (addr : Nat)
  deriving DecidableEq, Repr

/-- `struct trapframe`: the registers that the kernel sets one by one, and the others. -/
structure TrapFrame where
  eax : Nat
  eip : Nat
  esp : Nat
  rest : List Nat
  deriving DecidableEq, Repr

/-- `struct proc`. The trap frame is what `tf` points to, the name is the C string, and `context` is left to the
scheduling of the processes, which the systems below describe by where each process is in its code. -/
structure Proc where
  sz : Nat
  pgdir : Option Frame
  kstack : Option Frame
  state : ProcState
  pid : Int
  parent : Option Slot
  tf : TrapFrame
  chan : Option Chan
  killed : Int
  ofile : Fin NOFILE → Option Nat
  cwd : Option Nat
  name : List UInt8
  priority : Int
  ctime : Int
  etime : Int
  rtime : Int

/-- A slot of the table at boot: static data, all zero. -/
def Proc.zero : Proc where
  sz := 0
  pgdir := none
  kstack := none
  state := .unused
  pid := 0
  parent := none
  tf := { eax := 0, eip := 0, esp := 0, rest := [] }
  chan := none
  killed := 0
  ofile := fun _ => none
  cwd := none
  name := []
  priority := 0
  ctime := 0
  etime := 0
  rtime := 0

/-- `ptable.proc` and the variables that go with it. -/
structure Table where
  proc : Slot → Proc
  nextpid : Int
  initproc : Slot
  ticks : Nat

/-- A slot changed by `f`, the others left. -/
def Table.modify (t : Table) (i : Slot) (f : Proc → Proc) : Table :=
  { t with proc := Function.update t.proc i (f (t.proc i)) }

/-- The slots in the order in which every loop over the table goes. -/
def slots : List Slot := List.finRange NPROC

/-! ## Making a process -/

/-- The first `UNUSED` slot. -/
def freeSlot (t : Table) : Option Slot := slots.find? fun i => (t.proc i).state = .unused

/-- `allocproc` from `found` to the release of the lock. The slot's other fields, `killed` and `parent` among them, keep
what the slot's last process left in them. -/
def allocprocFound (i : Slot) (t : Table) : Table :=
  { t.modify i fun p =>
      { p with state := .embryo, pid := t.nextpid, priority := 60, ctime := int32 t.ticks, rtime := 0, etime := 0 } with
    nextpid := int32 (t.nextpid + 1) }

/-- The critical section of `allocproc`. -/
def allocprocClaim (t : Table) : Option (Slot × Table) :=
  match freeSlot t with
  | none => none
  | some i => some (i, allocprocFound i t)

/-- The rest of `allocproc`, with what `kalloc` returned: without a page the slot is given back. -/
def allocprocStack (i : Slot) (k : Option Frame) (t : Table) : Table :=
  match k with
  | none => t.modify i fun p => { p with kstack := none, state := .unused }
  | some f => t.modify i fun p => { p with kstack := some f }

/-- `safestrcpy` into `name`: at most 15 bytes and the zero. -/
def safestrcpy (s : List UInt8) : List UInt8 := s.take 15

/-- `fork` when `copyuvm` has failed and the kernel stack has been freed. -/
def forkFail (np : Slot) (t : Table) : Table :=
  t.modify np fun p => { p with pgdir := none, kstack := none, state := .unused }

/-- `fork` by `cur` when `copyuvm` has returned `d`, up to the second `acquire`. -/
def forkCopy (cur np : Slot) (d : Frame) (t : Table) : Table :=
  let c := t.proc cur
  t.modify np fun p =>
    { p with
      pgdir := some d
      sz := c.sz
      parent := some cur
      tf := { c.tf with eax := 0 }
      ofile := fun fd => if (c.ofile fd).isSome then c.ofile fd else p.ofile fd
      cwd := c.cwd
      name := safestrcpy c.name }

/-- `fork2` writes the child's priority after the rest of the copy. -/
def fork2Copy (cur np : Slot) (priority : Int) (d : Frame) (t : Table) : Table :=
  (forkCopy cur np d t).modify np fun p => { p with priority := priority }

/-- The second critical section of `fork` and `fork2`. -/
def forkPublish (np : Slot) (t : Table) : Table := t.modify np fun p => { p with state := .runnable }

/-- The table at boot, before `userinit`: static data, with `nextpid = 1`. -/
def Table.zero : Table := { proc := fun _ => Proc.zero, nextpid := 1, initproc := 0, ticks := 0 }

/-- The trap frame that `userinit` builds: zero but for the user segments, `eflags` and the stack pointer. The other
registers are in the order of `struct trapframe`: `edi` to `ecx`, `gs`, `fs`, `es`, `ds`, `trapno`, `err`, `cs`, `eflags`,
`ss`. -/
def userinitFrame : TrapFrame :=
  { eax := 0, eip := 0, esp := PGSIZE, rest := [0, 0, 0, 0, 0, 0, 0, 0, 0, 35, 35, 0, 0, 27, 0x200, 35] }

/-- `userinit`, with the pages it gets for the kernel stack and the page directory: `allocproc` finds slot 0. The name is
"initcode" and the current directory the root inode. -/
def userinit (k d : Frame) : Table :=
  let t := allocprocStack 0 (some k) (allocprocFound 0 Table.zero)
  let t := t.modify 0 fun p =>
    { p with
      pgdir := some d
      sz := PGSIZE
      tf := userinitFrame
      name := safestrcpy [105, 110, 105, 116, 99, 111, 100, 101]
      cwd := some 1 }
  forkPublish 0 { t with initproc := 0 }

/-! ## Sleeping and waking -/

/-- `sleep` up to `sched`. -/
def sleepOn (p : Slot) (c : Chan) (t : Table) : Table :=
  t.modify p fun q => { q with chan := some c, state := .sleeping }

/-- `wakeup1`. -/
def wakeup1 (c : Option Chan) (t : Table) : Table :=
  { t with proc := fun i =>
      if (t.proc i).state = .sleeping ∧ (t.proc i).chan = c then { t.proc i with state := .runnable } else t.proc i }

/-- `yield` up to `sched`. -/
def yield (p : Slot) (t : Table) : Table := t.modify p fun q => { q with state := .runnable }

/-- The scheduler switches to a process. One that slept goes on after `sched` in `sleep`, which clears `chan`; for any
other `chan` is null already. -/
def dispatch (p : Slot) (t : Table) : Table := t.modify p fun q => { q with state := .running, chan := none }

/-- `update_rtime`. -/
def updateRtime (t : Table) : Table :=
  { t with proc := fun i =>
      if (t.proc i).state = .running then { t.proc i with rtime := int32 ((t.proc i).rtime + 1) } else t.proc i }

/-- The timer interrupt under `tickslock`: `ticks++` and the wakeup of the sleepers on `&ticks`. -/
def tick (ticksAddr : Nat) (t : Table) : Table :=
  wakeup1 (some (.other ticksAddr)) { t with ticks := u32 (t.ticks + 1) }

/-! ## Exit -/

/-- `exit` up to `acquire`: the open files and the current directory are let go. -/
def exitClose (cur : Slot) (t : Table) : Table :=
  t.modify cur fun p => { p with ofile := fun _ => none, cwd := none }

/-- One turn of the loop of `exit` that passes abandoned children to init. -/
def reparentOne (cur : Slot) (t : Table) (i : Slot) : Table :=
  if (t.proc i).parent = some cur then
    let t' := t.modify i fun p => { p with parent := some t.initproc }
    if (t'.proc i).state = .zombie then wakeup1 (some (.proc t.initproc)) t' else t'
  else t

/-- `exit` from `acquire` to the end of that loop: the parent may be asleep in a wait. -/
def exitReparent (cur : Slot) (t : Table) : Table :=
  slots.foldl (reparentOne cur) (wakeup1 ((t.proc cur).parent.map .proc) t)

/-- The critical section of `exit`. -/
def exitTable (cur : Slot) (t : Table) : Table :=
  (exitReparent cur t).modify cur fun p => { p with etime := int32 (exitReparent cur t).ticks, state := .zombie }

/-! ## Kill and set_priority -/

/-- The first slot with this pid, whatever its state. -/
def slotOfPid (pid : Int) (t : Table) : Option Slot := slots.find? fun i => (t.proc i).pid = pid

/-- `kill`. -/
def kill (pid : Int) (t : Table) : Int × Table :=
  match slotOfPid pid t with
  | none => (-1, t)
  | some i =>
    (0, t.modify i fun p =>
      { p with killed := 1, state := if p.state = .sleeping then .runnable else p.state })

/-- `sys_kill`. -/
def sysKill (a : Arg) (t : Table) : Int × Table :=
  match a with
  | none => (-1, t)
  | some pid => kill pid t

/-- `sys_sigkill`, which is `sys_kill` under another name. -/
def sysSigkill (a : Arg) (t : Table) : Int × Table :=
  match a with
  | none => (-1, t)
  | some pid => kill pid t

/-- `sys_set_priority`. -/
def sysSetPriority (a b : Arg) (t : Table) : Int × Table :=
  match a, b with
  | some pid, some prio =>
    if prio < 0 ∨ prio > 100 then (-1, t)
    else
      match slotOfPid pid t with
      | none => (-1, t)
      | some i => ((t.proc i).priority, t.modify i fun p => { p with priority := prio })
  | _, _ => (-1, t)

/-! ## Waiting -/

/-- `sizeof(struct proc)` on the 32-bit machine. -/
def PROCSIZE : Nat := 140

/-- The value of `enum procstate` that an `int` stands for. -/
def procStateOf (v : Int) : Option ProcState :=
  [.unused, .embryo, .sleeping, .runnable, .running, .zombie][uintOf v]?

/-- A 4-byte store at an offset of a `struct proc`, for the fields that are numbers; `none` for the pointers, the name, and
an offset inside a field. -/
def storeField (off : Nat) (v : Int) (p : Proc) : Option Proc :=
  match off with
  | 0 => some { p with sz := uintOf v }
  | 12 => (procStateOf v).map fun st => { p with state := st }
  | 16 => some { p with pid := v }
  | 36 => some { p with killed := v }
  | 124 => some { p with priority := v }
  | 128 => some { p with ctime := v }
  | 132 => some { p with etime := v }
  | 136 => some { p with rtime := v }
  | _ => none

/-- A store `*(int*)addr = v` by the kernel, with `ptable.proc` at `base`: below `KERNBASE` it goes to user memory (or
faults, which stops the machine), in the process table it writes a field, and elsewhere in the kernel it leaves the
model. -/
def storeInt (base addr : Nat) (v : Int) (t : Table) : Option Table :=
  if addr + 4 ≤ KERNBASE then some t
  else if h : base ≤ addr ∧ (addr - base) / PROCSIZE < NPROC then
    (storeField ((addr - base) % PROCSIZE) v (t.proc ⟨(addr - base) / PROCSIZE, h.2⟩)).map fun p =>
      t.modify ⟨(addr - base) / PROCSIZE, h.2⟩ fun _ => p
  else none

/-- What a reaper hands on: the value it returns, the kernel stack and the page directory it frees, and the table. -/
structure Reaped where
  ret : Int
  kstack : Option Frame
  pgdir : Option Frame
  table : Table

/-- `wait` when it has found the zombie child `i`. -/
def waitReap (i : Slot) (t : Table) : Reaped where
  ret := (t.proc i).pid
  kstack := (t.proc i).kstack
  pgdir := (t.proc i).pgdir
  table := t.modify i fun p =>
    { p with kstack := none, pid := 0, parent := none, name := [], killed := 0, state := .unused }

/-- `sys_waitx` when it has found the zombie child `i`. The two addresses come from `argint`, so nothing has checked them,
and the stores come before the child's pid is read. -/
def waitxReap (base : Nat) (wtimeAddr rtimeAddr : Int) (i : Slot) (t : Table) : Option Reaped :=
  let wtime := int32 ((t.proc i).etime - (t.proc i).ctime - (t.proc i).rtime)
  let rtime := (t.proc i).rtime
  (storeInt base (uintOf wtimeAddr) wtime t).bind fun t =>
    (storeInt base (uintOf rtimeAddr) rtime t).map fun t =>
      { ret := (t.proc i).pid
        kstack := (t.proc i).kstack
        pgdir := (t.proc i).pgdir
        table := t.modify i fun p =>
          { p with kstack := none, pid := 0, parent := none, name := [], killed := 0, state := .unused } }

/-- `sys_waitpid` when it has found the zombie child `i`. -/
def waitpidReap (i : Slot) (t : Table) : Reaped where
  ret := (t.proc i).pid
  kstack := (t.proc i).kstack
  pgdir := (t.proc i).pgdir
  table := t.modify i fun p =>
    { p with kstack := none, state := .unused, pid := 0, parent := none, name := [], killed := 0 }

/-- A call that waits for a child, with its arguments. -/
inductive WaitCall where
  | wait
  | waitx (wtimeAddr rtimeAddr : Int)
  | waitpid (pid : Int)
  deriving DecidableEq, Repr

/-- A wait call whose addresses, if it has any, lie in user space. -/
def WaitCall.UserAddrs : WaitCall → Prop
  | .waitx a b => uintOf a + 4 ≤ KERNBASE ∧ uintOf b + 4 ≤ KERNBASE
  | _ => True

/-- The child is one the call waits for. -/
def WaitCall.mine (w : WaitCall) (cur : Slot) (p : Proc) : Bool :=
  match w with
  | .wait => p.parent = some cur
  | .waitx _ _ => p.parent = some cur
  | .waitpid pid => p.parent = some cur && p.pid = pid

/-- What the scan of the table finds: a zombie to reap, or whether there is any child to wait for. -/
inductive Scan where
  | zombie (i : Slot)
  | none (havekids : Bool)
  deriving DecidableEq, Repr

/-- The loop over the table in `wait`, `sys_waitx` and `sys_waitpid`. -/
def waitScan (w : WaitCall) (cur : Slot) (t : Table) (havekids : Bool) : List Slot → Scan
  | [] => .none havekids
  | i :: is =>
    if w.mine cur (t.proc i) then
      if (t.proc i).state = .zombie then .zombie i else waitScan w cur t true is
    else waitScan w cur t havekids is

/-- The teardown of the child that the scan found. -/
def WaitCall.reap (w : WaitCall) (base : Nat) (i : Slot) (t : Table) : Option Reaped :=
  match w with
  | .wait => some (waitReap i t)
  | .waitx a b => waitxReap base a b i t
  | .waitpid _ => some (waitpidReap i t)

/-- What one turn of the `for (;;)` comes to. -/
inductive WaitPass where
  | reaped (i : Slot) (r : Reaped)
  | fail
  | sleep

/-- One turn of the `for (;;)` of a wait by `cur`. -/
def waitPass (base : Nat) (w : WaitCall) (cur : Slot) (t : Table) : Option WaitPass :=
  match waitScan w cur t false slots with
  | .zombie i => (w.reap base i t).map (.reaped i)
  | .none havekids => if !havekids || (t.proc cur).killed != 0 then some .fail else some .sleep

end OsLab
