import OsLab.Lib.Run
import OsLab.Proc

/-!
# Pipes

`pipe.c`, with the part of `file.c`, `sysfile.c` and `proc.c` that passes the two ends of a pipe on and closes them: `filedup`,
`fileclose`, `dup`, `close`, `fork` and `exit`. `PipeSys` is one pipe, from where `pipealloc` has set it up, with its two files and with
the processes: how many of its descriptors are for each of the two files, and where each process is (`PipeTask`). A step is what a process
does while it holds one lock, so steps of different processes come in any order: `fileclose` lets go of `ftable.lock` before `pipeclose`
takes the lock of the pipe. `pipewrite` and `piperead` hold the lock of the pipe until they return or sleep.

The two ends, and the channels on which those who use them sleep, are told apart by `writable`, as in `pipeclose`: who reads sleeps on
`&p->nread`, who writes on `&p->nwrite`.
-/

namespace OsLab

/-- `PIPESIZE`. -/
def PIPESIZE : Nat := 512

instance instNeZeroPIPESIZE : NeZero PIPESIZE := ⟨by decide⟩

/-! ## Pipes -/

/-- `struct pipe`, without its lock. -/
structure Pipe where
  data : Fin PIPESIZE → UInt8
  nread : Nat
  nwrite : Nat
  readopen : Bool
  writeopen : Bool

/-- How a write comes out of the lock of the pipe. -/
inductive WriteEnd where
  /-- It has written everything. -/
  | done
  /-- It returns -1. -/
  | fail
  /-- It sleeps, with these bytes to go. -/
  | sleep (rest : List UInt8)
  deriving DecidableEq

/-- How a read comes out of the lock of the pipe. -/
inductive ReadEnd where
  | done (bytes : List UInt8)
  | fail
  | sleep
  deriving DecidableEq

namespace Pipe

/-- The condition on which a writer waits. -/
def full (P : Pipe) : Bool := P.nwrite == u32 (P.nread + PIPESIZE)

/-- The condition on which a reader waits while the other end is open. -/
def empty (P : Pipe) : Bool := P.nread == P.nwrite

/-- `p->data[p->nwrite++ % PIPESIZE] = c`. -/
def put (P : Pipe) (c : UInt8) : Pipe :=
  { P with data := Function.update P.data (Fin.ofNat PIPESIZE P.nwrite) c, nwrite := u32 (P.nwrite + 1) }

/-- `p->data[p->nread % PIPESIZE]`. -/
def head (P : Pipe) : UInt8 := P.data (Fin.ofNat PIPESIZE P.nread)

/-- `p->nread++`. -/
def advance (P : Pipe) : Pipe := { P with nread := u32 (P.nread + 1) }

/-- `pipewrite`, from where it has the lock to where it returns or sleeps, with the bytes that it has put in. -/
def pipewrite (killed : Bool) : Pipe → List UInt8 → Pipe × List UInt8 × WriteEnd
  | P, [] => (P, [], .done)
  | P, c :: rest =>
    if P.full then
      if P.readopen = false ∨ killed = true then (P, [], .fail) else (P, [], .sleep (c :: rest))
    else
      let r := pipewrite killed (P.put c) rest
      (r.1, c :: r.2.1, r.2.2)

/-- The loop of `piperead`. -/
def copyOut : Pipe → Nat → Pipe × List UInt8
  | P, 0 => (P, [])
  | P, n + 1 =>
    if P.empty then (P, [])
    else
      let r := copyOut P.advance n
      (r.1, P.head :: r.2)

/-- `piperead`, from where it has the lock to where it returns or sleeps. -/
def piperead (killed : Bool) (P : Pipe) (n : Nat) : Pipe × ReadEnd :=
  if P.empty ∧ P.writeopen then
    if killed then (P, .fail) else (P, .sleep)
  else
    let r := P.copyOut n
    (r.1, .done r.2)

/-- The pipe with one end closed. -/
def close (P : Pipe) (writable : Bool) : Pipe := if writable then { P with writeopen := false } else { P with readopen := false }

end Pipe

/-! ## The files and the processes -/

/-- Where a process is. -/
inductive PipeTask where
  | unused
  /-- In user mode, or at the start of a call. -/
  | user
  /-- In `exit`, where it closes its files; it is a zombie when it has closed them. -/
  | exiting
  /-- In `fileclose`, about to call `pipeclose`. -/
  | ending (writable exiting : Bool)
  /-- In `pipewrite`, with these bytes to go. -/
  | writing (rest : List UInt8)
  /-- In `piperead`. -/
  | reading (n : Nat)
  deriving DecidableEq

/-- A process, as far as it has to do with the pipe. -/
structure PipeProc where
  /-- How many of its descriptors are for the file of this end. -/
  fds : Bool → Nat
  task : PipeTask
  asleep : Option Bool
  killed : Bool

/-- The pipe, its two files and the processes. -/
structure PipeSys where
  pipe : Pipe
  /-- The page of the pipe has been given back. -/
  freed : Bool
  /-- `ref` of the two files. -/
  ref : Bool → Nat
  proc : Slot → PipeProc

/-- What a process does next. -/
inductive PipeAct where
  | sysDup (p : Slot) (writable : Bool)
  | fileclose (p : Slot) (writable : Bool)
  | pipeclose (p : Slot)
  | fork (p c : Slot)
  | exit (p : Slot)
  | wait (c : Slot)
  | sysWrite (p : Slot) (bytes : List UInt8)
  | sysRead (p : Slot) (n : Nat)
  /-- A turn of `pipewrite` or `piperead`. -/
  | turn (p : Slot)
  /-- `kill`; it may come when the process has looked at `killed` and is about to sleep, and then it does not wake it up. -/
  | kill (p : Slot) (wakes : Bool)

namespace PipeSys

/-- A process, changed. -/
def setProc (s : PipeSys) (p : Slot) (x : PipeProc) : PipeSys := { s with proc := Function.update s.proc p x }

/-- A process goes on to something else. -/
def setTask (s : PipeSys) (p : Slot) (t : PipeTask) : PipeSys := s.setProc p { s.proc p with task := t }

/-- `wakeup`, for those who use this end. -/
def wakeup (s : PipeSys) (writable : Bool) : PipeSys :=
  { s with proc := fun p => if (s.proc p).asleep = some writable then { s.proc p with asleep := none } else s.proc p }

/-! ## Passing on -/

/-- `filedup`; it panics when there is no reference. -/
def filedup (s : PipeSys) (writable : Bool) : Option PipeSys :=
  if s.ref writable < 1 then none else some { s with ref := Function.update s.ref writable (s.ref writable + 1) }

/-- `filedup`, for each of `n` descriptors. -/
def filedups (writable : Bool) : Nat → PipeSys → Option PipeSys
  | 0, s => some s
  | n + 1, s => (s.filedup writable).bind (filedups writable n)

/-- `sys_dup`, when there is a descriptor left. -/
def sysDup (s : PipeSys) (p : Slot) (writable : Bool) : Option PipeSys :=
  (s.filedup writable).map fun s =>
    s.setProc p { s.proc p with fds := Function.update (s.proc p).fds writable ((s.proc p).fds writable + 1) }

/-- `fork`, as far as it has to do with the two files. The parent has its references all the while, so that the calls of `filedup` may
come in one step. -/
def fork (s : PipeSys) (p c : Slot) : Option PipeSys :=
  ((filedups false ((s.proc p).fds false) s).bind (filedups true ((s.proc p).fds true))).map fun s =>
    s.setProc c { s.proc c with fds := (s.proc p).fds, task := .user }

/-! ## Closing -/

/-- `fileclose` for one of the descriptors of the process, while it holds `ftable.lock`; it panics when there is no reference. Nobody else
looks at the descriptors of a process, so that `sys_close` and `exit` may clear them here. -/
def fileclose (s : PipeSys) (p : Slot) (writable : Bool) : Option PipeSys :=
  let x := { s.proc p with fds := Function.update (s.proc p).fds writable ((s.proc p).fds writable - 1) }
  if s.ref writable < 1 then none
  else
    let t := { s with ref := Function.update s.ref writable (s.ref writable - 1) }
    if 1 < s.ref writable then some (t.setProc p x)
    else some (t.setProc p { x with task := .ending writable (x.task = .exiting) })

/-- `pipeclose`. The other end is woken up. -/
def pipeclose (s : PipeSys) (p : Slot) : Option PipeSys :=
  match (s.proc p).task with
  | .ending writable exiting =>
    let P := s.pipe.close writable
    let s := s.wakeup (!writable)
    let freed := if P.readopen = false ∧ P.writeopen = false then true else s.freed
    some ({ s with pipe := P, freed := freed }.setTask p (if exiting then .exiting else .user))
  | _ => none

/-! ## Reading and writing -/

/-- A turn of a process in `pipewrite` or `piperead`, with its wakeups. -/
def turn (s : PipeSys) (p : Slot) : Option PipeSys :=
  match (s.proc p).task with
  | .writing rest =>
    let r := s.pipe.pipewrite (s.proc p).killed rest
    let s := { s with pipe := r.1 }
    match r.2.2 with
    | .done => some ((s.wakeup false).setTask p .user)
    | .fail => some (s.setTask p .user)
    | .sleep rest =>
      let s := s.wakeup false
      some (s.setProc p { s.proc p with asleep := some true, task := .writing rest })
  | .reading n =>
    let r := s.pipe.piperead (s.proc p).killed n
    let s := { s with pipe := r.1 }
    match r.2 with
    | .done _ => some ((s.wakeup true).setTask p .user)
    | .fail => some (s.setTask p .user)
    | .sleep => some (s.setProc p { s.proc p with asleep := some false })
  | _ => none

/-! ## The machine -/

/-- One step. -/
def step (s : PipeSys) : PipeAct → Option PipeSys
  | .sysDup p writable => if (s.proc p).task = .user ∧ 0 < (s.proc p).fds writable then s.sysDup p writable else none
  | .fileclose p writable =>
    if ((s.proc p).task = .user ∨ (s.proc p).task = .exiting) ∧ 0 < (s.proc p).fds writable then s.fileclose p writable else none
  | .pipeclose p => s.pipeclose p
  | .fork p c => if (s.proc p).task = .user ∧ (s.proc c).task = .unused then s.fork p c else none
  | .exit p => if (s.proc p).task = .user then some (s.setTask p .exiting) else none
  | .wait c =>
    if (s.proc c).task = .exiting ∧ ∀ w, (s.proc c).fds w = 0 then
      some (s.setProc c { s.proc c with task := .unused, killed := false })
    else none
  | .sysWrite p bytes => if (s.proc p).task = .user ∧ 0 < (s.proc p).fds true then some (s.setTask p (.writing bytes)) else none
  | .sysRead p n => if (s.proc p).task = .user ∧ 0 < (s.proc p).fds false then some (s.setTask p (.reading n)) else none
  | .turn p => if (s.proc p).asleep = none then s.turn p else none
  | .kill p wakes =>
    if (s.proc p).task = .unused then none
    else some (s.setProc p { s.proc p with killed := true, asleep := if wakes then none else (s.proc p).asleep })

/-- The machine when `sys_pipe` has given both files a descriptor of the process `p`. Of the other processes some are in use, and the page
may hold anything. -/
def start (data : Fin PIPESIZE → UInt8) (p : Slot) (used : Slot → Bool) : PipeSys where
  pipe := ⟨data, 0, 0, true, true⟩
  freed := false
  ref _ := 1
  proc q := ⟨fun _ => if q = p then 1 else 0, if q = p ∨ used q = true then .user else .unused, none, false⟩

/-- The machine, from any pipe that is new. -/
def sys : Sys PipeSys PipeAct where
  init s := ∃ data p used, s = start data p used
  step := step

/-! ## What has gone through the pipe -/

/-- The bytes that have been written to the pipe and those that have been read from it. -/
structure Stream where
  sent : List UInt8
  got : List UInt8

/-- The bytes after a step. -/
def record (s : PipeSys) (h : Stream) : PipeAct → Stream
  | .turn p =>
    match (s.proc p).task with
    | .writing rest => { h with sent := h.sent ++ (s.pipe.pipewrite (s.proc p).killed rest).2.1 }
    | .reading n =>
      match (s.pipe.piperead (s.proc p).killed n).2 with
      | .done bytes => { h with got := h.got ++ bytes }
      | _ => h
    | _ => h
  | _ => h

/-- The machine, with what has gone through the pipe. -/
def traced : Sys (PipeSys × Stream) PipeAct where
  init x := sys.init x.1 ∧ x.2 = ⟨[], []⟩
  step x a := (x.1.step a).map fun s => (s, x.1.record x.2 a)

/-! ## Who holds an end -/

/-- Somebody holds this end: there is a reference to its file, or a process is about to close it. -/
def Held (s : PipeSys) (writable : Bool) : Prop := 0 < s.ref writable ∨ ∃ p exiting, (s.proc p).task = .ending writable exiting

/-- The process is in `pipewrite`. -/
def writes (s : PipeSys) (p : Slot) : Bool :=
  match (s.proc p).task with
  | .writing _ => true
  | _ => false

/-- No process takes a turn in `pipewrite` after it has been killed. -/
def WritersLive (s : PipeSys) : PipeAct → Prop
  | .turn p => writes s p = true → (s.proc p).killed = false
  | _ => True

instance (s : PipeSys) : (a : PipeAct) → Decidable (WritersLive s a)
  | .turn p => inferInstanceAs (Decidable (writes s p = true → (s.proc p).killed = false))
  | .sysDup _ _ => .isTrue trivial
  | .fileclose _ _ => .isTrue trivial
  | .pipeclose _ => .isTrue trivial
  | .fork _ _ => .isTrue trivial
  | .exit _ => .isTrue trivial
  | .wait _ => .isTrue trivial
  | .sysWrite _ _ => .isTrue trivial
  | .sysRead _ _ => .isTrue trivial
  | .kill _ _ => .isTrue trivial

end PipeSys

end OsLab
