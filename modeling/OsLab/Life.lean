import OsLab.ProcRuns
import OsLab.Lib.Forest

/-!
# The life of the processes

What the process calls do, seen from a distance: of each slot only the stage of its life, its parent, its pid, the kernel
stack and page directory it holds and whether it has been killed; of each process only which child it is in the middle of
making. Everything the scheduler does, and every sleep and wakeup, is invisible here. `lifeSys` says which steps there are;
`view` reads this state off the full one, and `forest` reads off the family of `OsLab.Lib.Forest`.
-/

namespace OsLab

/-- The stage of life that a process state stands for. -/
def ProcState.phase : ProcState → Phase
  | .unused => .free
  | .embryo => .embryo
  | .sleeping => .live
  | .runnable => .live
  | .running => .live
  | .zombie => .zombie

/-- What matters of a slot for the life of its process. -/
@[ext]
structure Life where
  phase : Phase
  parent : Option Slot
  pid : Int
  kstack : Option Frame
  pgdir : Option Frame
  killed : Int

/-- What matters of a slot of the table. -/
def Proc.life (p : Proc) : Life where
  phase := p.state.phase
  parent := p.parent
  pid := p.pid
  kstack := p.kstack
  pgdir := p.pgdir
  killed := p.killed

/-- What matters of the whole table. -/
def Table.life (t : Table) : Slot → Life := fun i => (t.proc i).life

/-- How far a process has come in making a child. -/
inductive Place where
  | idle
  | stack (np : Slot)
  | copy (np : Slot)
  | publish (np : Slot)
  deriving DecidableEq, Repr

/-- How far a process has come in making a child, by where it is in the code. -/
def ProcPc.place : ProcPc → Place
  | .forkStack np _ => .stack np
  | .forkCopy np _ => .copy np
  | .forkPublish np => .publish np
  | _ => .idle

/-- The lives of the processes, with the record. -/
@[ext]
structure LifeSt where
  life : Slot → Life
  nextpid : Int
  root : Slot
  place : Slot → Place
  inst : Slot → Nat
  allocs : Nat
  log : List ProcEvent

/-- The lives that a state of the process calls holds. -/
def view (s : ProcSt) : LifeSt where
  life := s.table.life
  nextpid := s.table.nextpid
  root := s.table.initproc
  place := fun p => (s.pc p).place
  inst := s.inst
  allocs := s.allocs
  log := s.log

/-- The steps of a life. -/
inductive LifeAct where
  | killMiss (pid : Int)
  | kill (pid : Int) (i : Slot)
  | fault (p : Slot)
  | claim (p i : Slot)
  | noStack (p i : Slot)
  | stack (p i : Slot) (f : Frame)
  | noSpace (p i : Slot) (f : Frame)
  | space (p i : Slot) (d : Frame)
  | publish (p i : Slot)
  | exit (p : Slot)
  | reap (cur : Slot) (w : WaitCall) (i : Slot) (f d : Frame)

/-- The call may reap a child with this pid. -/
def WaitCall.Wants : WaitCall → Int → Prop
  | .waitpid n, pid => pid = n
  | _, _ => True

instance (w : WaitCall) (pid : Int) : Decidable (w.Wants pid) :=
  match w with
  | .wait => inferInstanceAs (Decidable True)
  | .waitx _ _ => inferInstanceAs (Decidable True)
  | .waitpid n => inferInstanceAs (Decidable (pid = n))

namespace LifeSt

/-- One slot's life set, with the place of one process and what is added to the record. -/
def set (v : LifeSt) (i : Slot) (x : Life) (p : Slot) (c : Place) (es : List ProcEvent) : LifeSt :=
  { v with life := Function.update v.life i x, place := Function.update v.place p c, log := es ++ v.log }

/-- One step: `none` when it cannot be taken. -/
def step (v : LifeSt) : LifeAct → Option LifeSt
  | .killMiss pid => some { v with log := .killCall pid :: v.log }
  | .kill pid i =>
    if (v.life i).pid = pid then
      some { v with
        life := Function.update v.life i { v.life i with killed := 1 }
        log := .killCall pid :: v.log }
    else none
  | .fault p =>
    if (v.life p).phase = .live then
      some { v with life := Function.update v.life p { v.life p with killed := 1 } }
    else none
  | .claim p i =>
    if (v.life p).phase = .live ∧ v.place p = .idle ∧ (v.life i).phase = .free then
      some { v.set i { v.life i with phase := .embryo, pid := v.nextpid } p (.stack i) [.born v.allocs v.nextpid] with
        nextpid := int32 (v.nextpid + 1)
        inst := Function.update v.inst i v.allocs
        allocs := v.allocs + 1 }
    else none
  | .noStack p i =>
    if v.place p = .stack i then
      some (v.set i { v.life i with phase := .free, kstack := none } p .idle [.failed (v.inst i)])
    else none
  | .stack p i f =>
    if v.place p = .stack i then some (v.set i { v.life i with kstack := some f } p (.copy i) [.stack (v.inst i) f])
    else none
  | .noSpace p i f =>
    if v.place p = .copy i ∧ (v.life i).kstack = some f then
      some (v.set i { v.life i with phase := .free, kstack := none, pgdir := none } p .idle
        [.failed (v.inst i), .kfree (v.inst i) f])
    else none
  | .space p i d =>
    if v.place p = .copy i then
      some (v.set i { v.life i with parent := some p, pgdir := some d } p (.publish i) [.space (v.inst i) d])
    else none
  | .publish p i =>
    if v.place p = .publish i then
      some (v.set i { v.life i with phase := .live } p .idle
        [.published (v.inst i) (v.life i).pid (v.life i).killed])
    else none
  | .exit p =>
    if p ≠ v.root ∧ (v.life p).phase = .live ∧ v.place p = .idle then
      some { v with life := fun i =>
        { v.life i with
          phase := if i = p then .zombie else (v.life i).phase
          parent := if (v.life i).parent = some p then some v.root else (v.life i).parent } }
    else none
  | .reap cur w i f d =>
    if (v.life i).phase = .zombie ∧ (v.life i).parent = some cur ∧ w.Wants (v.life i).pid ∧ (v.life i).kstack = some f ∧
        (v.life i).pgdir = some d ∧ v.place cur = .idle then
      some (v.set i { v.life i with phase := .free, parent := none, pid := 0, kstack := none, killed := 0 } cur .idle
        [.reaped cur w i (v.inst i) (v.life i).pid, .freevm (v.inst i) d, .kfree (v.inst i) f])
    else none

end LifeSt

/-- The state after `userinit`, from a distance. -/
def lifeBoot (k d : Frame) : LifeSt := view (.boot k d)

/-- The lives of the processes, in any order of their steps. -/
def lifeSys : Sys LifeSt LifeAct where
  init v := ∃ k d, v = lifeBoot k d
  step := LifeSt.step

/-- The child that a process is in the middle of making. -/
def Place.making : Place → Making Slot
  | .idle => .idle
  | .stack i => .bare i
  | .copy i => .bare i
  | .publish i => .adopted i

/-- The family that the lives make up. -/
def forest (v : LifeSt) : Forest Slot where
  root := v.root
  phase := fun i => (v.life i).phase
  parent := fun i => (v.life i).parent
  making := fun p => (v.place p).making
  inst := v.inst
  count := v.allocs
  ended := endedInsts v.log

end OsLab
