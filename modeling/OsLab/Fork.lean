import OsLab.WaitxMem

/-!
# Fork, statement by statement

`fork` and `fork2` of `proc.c` are two copies of one function. Here each is written down as it stands, over the kernel state with the
reference counts of the open files and of the inodes. In `MemCalls` the two are one function of the memory and the table, which is what
these come to there (`fork_kern` and `fork2_kern`).

`NoTrace` says what a fork that fails leaves behind: nothing but the number of the next process and the fields of a slot that is unused.
-/

namespace OsLab

/-- The kernel state with the reference counts in `ftable` and `icache`. -/
structure FileKern where
  kern : Kern
  fileRef : Nat → Int
  inodeRef : Nat → Int

/-- A kernel function that may use files. -/
abbrev FileM (α : Type) := Cmd Panic FileKern α

/-- A kernel function that does not use files, called from one that may. -/
def onKern {α : Type} (x : KernM α) : FileM α := Cmd.zoom FileKern.kern (fun s k => { s with kern := k }) x

namespace FileKern

/-! ## Files and slots -/

/-- `filedup`. -/
def filedup (f : Nat) : FileM Unit := do
  let s ← get
  if s.fileRef f < 1 then throw .filedup
  else set { s with fileRef := Function.update s.fileRef f (int32 (s.fileRef f + 1)) }

/-- `idup`. There is no check that the pointer is there. -/
def idup (ip : Option Nat) : FileM Unit :=
  match ip with
  | none => throw .null
  | some i => modify fun s => { s with inodeRef := Function.update s.inodeRef i (int32 (s.inodeRef i + 1)) }

/-- An assignment to a field of `*np`, of what may be read from `*curproc`. -/
def assign (cur np : Slot) (f : Proc → Proc → Proc) : FileM Unit :=
  onKern (onTable fun t => t.modify np (f (t.proc cur)))

/-- `allocproc`. -/
def allocproc : FileM (Option Slot) := do
  match allocprocClaim (← get).kern.table with
  | none => pure none
  | some (np, t) =>
    onKern (onTable fun _ => t)
    let k ← onKern (onPhys kalloc)
    onKern (onTable (allocprocStack np k))
    if k = none then pure none else pure (some np)

/-- The loop over the open files of the parent. -/
def dupFiles (cur np : Slot) : List (Fin NOFILE) → FileM Unit
  | [] => pure ()
  | i :: is => do
    match ((← get).kern.table.proc cur).ofile i with
    | none => dupFiles cur np is
    | some f =>
      filedup f
      assign cur np fun _ p => { p with ofile := Function.update p.ofile i (some f) }
      dupFiles cur np is

section

variable (L : Layout)

/-! ## The two forks -/

/-- `fork`. -/
def fork (cur : Slot) : FileM Int := do
  match ← allocproc with
  | none => pure (-1)
  | some np =>
    let c := (← get).kern.table.proc cur
    let d ← onKern (do onPhys (copyuvm L (← useFrame c.pgdir) c.sz))
    assign cur np fun _ p => { p with pgdir := d }
    if d = none then
      let k := ((← get).kern.table.proc np).kstack
      onKern (do onPhys (kfree L (← useFrame k)))
      assign cur np fun _ p => { p with kstack := none }
      assign cur np fun _ p => { p with state := .unused }
      pure (-1)
    else
      assign cur np fun c p => { p with sz := c.sz }
      assign cur np fun _ p => { p with parent := some cur }
      assign cur np fun c p => { p with tf := c.tf }
      assign cur np fun _ p => { p with tf := { p.tf with eax := 0 } }
      dupFiles cur np (List.finRange NOFILE)
      idup ((← get).kern.table.proc cur).cwd
      assign cur np fun c p => { p with cwd := c.cwd }
      assign cur np fun c p => { p with name := safestrcpy c.name }
      let pid := ((← get).kern.table.proc np).pid
      assign cur np fun _ p => { p with state := .runnable }
      pure pid

/-- `fork2`. -/
def fork2 (cur : Slot) (priority : Int) : FileM Int :=
  if priority < 0 ∨ priority > 100 then pure (-1)
  else do
    match ← allocproc with
    | none => pure (-1)
    | some np =>
      let c := (← get).kern.table.proc cur
      let d ← onKern (do onPhys (copyuvm L (← useFrame c.pgdir) c.sz))
      assign cur np fun _ p => { p with pgdir := d }
      if d = none then
        let k := ((← get).kern.table.proc np).kstack
        onKern (do onPhys (kfree L (← useFrame k)))
        assign cur np fun _ p => { p with kstack := none }
        assign cur np fun _ p => { p with state := .unused }
        pure (-1)
      else
        assign cur np fun c p => { p with sz := c.sz }
        assign cur np fun _ p => { p with parent := some cur }
        assign cur np fun c p => { p with tf := c.tf }
        assign cur np fun _ p => { p with tf := { p.tf with eax := 0 } }
        dupFiles cur np (List.finRange NOFILE)
        idup ((← get).kern.table.proc cur).cwd
        assign cur np fun c p => { p with cwd := c.cwd }
        assign cur np fun c p => { p with name := safestrcpy c.name }
        assign cur np fun _ p => { p with priority := priority }
        let pid := ((← get).kern.table.proc np).pid
        assign cur np fun _ p => { p with state := .runnable }
        pure pid

end

/-! ## What is compared -/

/-- The state after a fork from `s`, with the priority of the new process replaced. A fork that failed has left the slot unused. -/
def withChildPriority (s : FileKern) (priority : Int) (s' : FileKern) : FileKern :=
  match freeSlot s.kern.table with
  | none => s'
  | some np =>
    if (s'.kern.table.proc np).state = .unused then s'
    else
      let table := s'.kern.table.modify np fun p => { p with priority := priority }
      { s' with kern := { s'.kern with table := table } }

end FileKern

/-- Nothing is left of a call but the number of the next process and the fields of slots that are unused: the free pages are the same
ones, the slots in use and the contents of every page that is not free are as they were, the page tables among them, and so are the
reference counts and the shared memory. -/
structure NoTrace (s s' : FileKern) : Prop where
  free : s'.kern.phys.freelist.Perm s.kern.phys.freelist
  pages : ∀ f, f ∉ s.kern.phys.freelist → s'.kern.phys.mem f = s.kern.phys.mem f
  tables : ∀ i d, (s.kern.table.proc i).state ≠ .unused → (s.kern.table.proc i).pgdir = some d →
    (∀ f, InTree s.kern.phys.mem d f → f ∉ s.kern.phys.freelist) →
      (∀ f, InTree s'.kern.phys.mem d f ↔ InTree s.kern.phys.mem d f) ∧ ∀ v < VPAGES, pte s'.kern.phys.mem d v = pte s.kern.phys.mem d v
  slots : ∀ i, (s.kern.table.proc i).state ≠ .unused → s'.kern.table.proc i = s.kern.table.proc i
  unused : ∀ i, (s'.kern.table.proc i).state = .unused ↔ (s.kern.table.proc i).state = .unused
  fixed : s'.kern.table.initproc = s.kern.table.initproc ∧ s'.kern.table.ticks = s.kern.table.ticks
  files : s'.fileRef = s.fileRef
  inodes : s'.inodeRef = s.inodeRef
  regions : s'.kern.regions = s.kern.regions
  keys : s'.kern.shmPages = s.kern.shmPages

end OsLab
