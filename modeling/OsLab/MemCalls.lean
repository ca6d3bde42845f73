import OsLab.Exec
import OsLab.Lib.Run
import OsLab.Proc

/-!
# The calls that use memory

The kernel as far as memory goes: physical memory, the process table, `shmtable.regions` of `vm.c` and `shm_pages` of
`sysproc.c`, with the calls that move pages (`fork`, `fork2`, `exec`, `exit`, the waits, `sbrk`, `shmem`, `shmget`) and `shmem_count`.

`memSys` is the system of whole calls by live processes, in any order and with any arguments, from the state that `main`
leaves after `userinit`. A wait that finds no zombie child changes nothing here; it reaps one in a later step. A user program
may store into its own pages between the calls.
-/

namespace OsLab

/-- `NSHM`: the shared memory regions. -/
abbrev NSHM : Nat := 8

/-- `SHM_NKEYS`: the keys of `shmem`. -/
abbrev SHM_NKEYS : Nat := 4

/-- An element of `shmtable.regions`. -/
structure ShmRegion where
  page : Option Frame
  refcnt : Int
  deriving DecidableEq, Repr

/-- The kernel state. -/
structure Kern where
  phys : Phys
  table : Table
  regions : Fin NSHM → ShmRegion
  shmPages : Fin SHM_NKEYS → Option Frame

/-- A kernel function. -/
abbrev KernM (α : Type) := Cmd Panic Kern α

/-- A function on physical memory, called in the kernel. -/
def onPhys {α : Type} (x : PhysM α) : KernM α := Cmd.zoom Kern.phys (fun s p => { s with phys := p }) x

/-- An update of the process table. -/
def onTable (f : Table → Table) : KernM Unit := modify fun s => { s with table := f s.table }

/-- A page pointer that the code uses without a check. -/
def useFrame (f : Option Frame) : KernM Frame :=
  match f with
  | none => throw .null
  | some f => pure f

/-! ## Growing and shrinking -/

section

variable (L : Layout)

/-- `switchuvm`: what it checks. It loads the page directory into the processor. -/
def switchuvm (cur : Slot) : KernM Unit := do
  let p := (← get).table.proc cur
  if p.kstack = none then throw .switchKstack
  else if p.pgdir = none then throw .switchPgdir
  else pure ()

/-- The end of `growproc`. -/
def setSize (cur : Slot) (sz : Nat) : KernM Int := do
  onTable fun t => t.modify cur fun p => { p with sz := sz }
  switchuvm cur
  pure 0

/-- `growproc`. -/
def growproc (cur : Slot) (n : Int) : KernM Int := do
  let p := (← get).table.proc cur
  if 0 < n then
    let sz ← onPhys (allocuvm L (← useFrame p.pgdir) p.sz (uintOf (p.sz + n)))
    if sz = 0 then pure (-1) else setSize cur sz
  else if n < 0 then
    let sz ← onPhys (deallocuvm L (← useFrame p.pgdir) p.sz (uintOf (p.sz + n)))
    if sz = 0 then pure (-1) else setSize cur sz
  else setSize cur p.sz

/-- `sys_sbrk`. -/
def sysSbrk (cur : Slot) (a : Arg) : KernM Int :=
  match a with
  | none => pure (-1)
  | some n => do
    let addr := int32 ((← get).table.proc cur).sz
    if (← growproc L cur n) < 0 then pure (-1) else pure addr

/-! ## Shared memory -/

/-- An argument in the range of an array. -/
def argIndex (n : Nat) (a : Int) : Option (Fin n) :=
  if h : 0 ≤ a ∧ a.toNat < n then some ⟨a.toNat, h.2⟩ else none

/-- `sys_shmem` when the key's page is there: the process grows by a page, and the page is copied there. -/
def shmemCopy (cur : Slot) (page : Frame) : KernM Int := do
  let va := ((← get).table.proc cur).sz
  if (← growproc L cur PGSIZE) < 0 then pure (-1)
  else
    let s ← get
    let d ← useFrame (s.table.proc cur).pgdir
    if (← onPhys (copyout d va (pageBytes (s.phys.mem page)))) < 0 then pure (-1) else pure (int32 va)

/-- `sys_shmem`. -/
def sysShmem (cur : Slot) (a : Arg) : KernM Int :=
  match a.bind (argIndex SHM_NKEYS) with
  | none => pure (-1)
  | some key => do
    match (← get).shmPages key with
    | some f => shmemCopy L cur f
    | none =>
      match ← onPhys kalloc with
      | none => pure (-1)
      | some f =>
        modify fun s => { s with phys := s.phys.fill f 0, shmPages := Function.update s.shmPages key (some f) }
        shmemCopy L cur f

/-- `shmget` when the region's page is there: it is mapped at the end of the process. -/
def shmgetMap (cur : Slot) (id : Fin NSHM) (page : Frame) : KernM Int := do
  let p := (← get).table.proc cur
  let va := pgRoundUp p.sz
  if (← onPhys (mappages (← useFrame p.pgdir) va PGSIZE (page * PGSIZE) (PTE_W ||| PTE_U))) < 0 then pure (-1)
  else
    onTable fun t => t.modify cur fun p => { p with sz := u32 (va + PGSIZE) }
    modify fun s =>
      let region := { s.regions id with refcnt := int32 ((s.regions id).refcnt + 1) }
      { s with regions := Function.update s.regions id region }
    switchuvm cur
    pure (int32 va)

/-- `shmget`. -/
def shmget (cur : Slot) (id : Int) : KernM Int :=
  match argIndex NSHM id with
  | none => pure (-1)
  | some id => do
    match ((← get).regions id).page with
    | some f => shmgetMap cur id f
    | none =>
      match ← onPhys kalloc with
      | none => pure (-1)
      | some f =>
        modify fun s =>
          { s with phys := s.phys.fill f 0, regions := Function.update s.regions id { page := some f, refcnt := 0 } }
        shmgetMap cur id f

/-- `sys_shmget`. -/
def sysShmget (cur : Slot) (a : Arg) : KernM Int :=
  match a with
  | none => pure (-1)
  | some id => shmget cur id

/-- `shmem_count`. -/
def shmemCount (id : Int) : KernM Int :=
  match argIndex NSHM id with
  | none => pure (-1)
  | some id => do pure ((← get).regions id).refcnt

/-- `sys_shmem_count`. -/
def sysShmemCount (a : Arg) : KernM Int :=
  match a with
  | none => pure (-1)
  | some id => shmemCount id

/-! ## Processes -/

/-- `fork` and `fork2`, which differ in what they write into the child. -/
def forkWith (cur : Slot) (copy : Slot → Frame → Table → Table) : KernM Int := do
  match allocprocClaim (← get).table with
  | none => pure (-1)
  | some (np, t) =>
    onTable fun _ => t
    let k ← onPhys kalloc
    onTable (allocprocStack np k)
    match k with
    | none => pure (-1)
    | some k =>
      let p := (← get).table.proc cur
      match ← onPhys (copyuvm L (← useFrame p.pgdir) p.sz) with
      | none =>
        onPhys (kfree L k)
        onTable (forkFail np)
        pure (-1)
      | some d =>
        onTable (copy np d)
        onTable (forkPublish np)
        pure ((← get).table.proc np).pid

/-- `fork`. -/
def fork (cur : Slot) : KernM Int := forkWith L cur (forkCopy cur)

/-- `fork2`, which refuses a priority that is out of range before it takes anything. -/
def fork2 (cur : Slot) (priority : Int) : KernM Int :=
  if priority < 0 ∨ priority > 100 then pure (-1) else forkWith L cur fun np => fork2Copy cur np priority

/-- `sys_fork2`. -/
def sysFork2 (cur : Slot) (a : Arg) : KernM Int :=
  match a with
  | none => pure (-1)
  | some priority => fork2 L cur priority

/-- What `exec` is called with: the path, the file that `namei` finds there, and the arguments. -/
structure ExecCall where
  path : List UInt8
  file : Option (Nat → Nat → List UInt8)
  argv : List (List UInt8)

/-- What stands in a path after the last slash. -/
def lastName (path : List UInt8) : List UInt8 := (path.reverse.takeWhile (· ≠ 47)).reverse

/-- `exec` from the commit on. -/
def execCommit (cur : Slot) (path : List UInt8) (im : Image) : KernM Int := do
  let old := ((← get).table.proc cur).pgdir
  onTable fun t => t.modify cur fun p =>
    { p with
      name := safestrcpy (lastName path)
      pgdir := some im.pgdir
      sz := im.sz
      tf := { p.tf with eip := im.entry, esp := im.sp } }
  switchuvm cur
  match old with
  | none => throw .noPgdir
  | some d =>
    onPhys (freevm L d)
    pure 0

/-- `exec`. -/
def exec (cur : Slot) (c : ExecCall) : KernM Int :=
  match c.file with
  | none => pure (-1)
  | some file => do
    match ← onPhys (execImage L file c.argv) with
    | none => pure (-1)
    | some im => execCommit L cur c.path im

/-- `exit`. -/
def exit (cur : Slot) : KernM Int := do
  if cur = (← get).table.initproc then throw .initExiting
  else
    onTable fun t => exitTable cur (exitClose cur t)
    pure 0

/-- The pages of a reaped child are freed. -/
def reapPages (r : Reaped) : KernM Int := do
  onPhys (kfree L (← useFrame r.kstack))
  match r.pgdir with
  | none => throw .noPgdir
  | some d => onPhys (freevm L d)
  onTable fun _ => r.table
  pure r.ret

/-- A turn of `wait`, `sys_waitx` or `sys_waitpid`, with `ptable.proc` at `base`. -/
def waitCall (base : Nat) (cur : Slot) (w : WaitCall) : KernM Int := do
  match waitPass base w cur (← get).table with
  | none => throw .stray
  | some .fail => pure (-1)
  | some .sleep => pure 0
  | some (.reaped _ r) => reapPages L r

/-- A store of one byte by the user program. On a page that it may not use it traps. -/
def userStore (cur : Slot) (va : Nat) (b : UInt8) : KernM Int := do
  let s ← get
  match (s.table.proc cur).pgdir with
  | none => pure 0
  | some d =>
    match ← onPhys (walkpgdir d va false) with
    | none => pure 0
    | some (t, i) =>
      let w := s.phys.mem t i
      if hasP w && hasU w then
        onPhys (modify fun p => p.poke (pteFrame w) (va % PGSIZE) [b])
        pure 0
      else pure 0

/-! ## The system -/

/-- A call with its arguments. -/
inductive MemCall where
  | fork
  | fork2 (a : Arg)
  | exec (c : ExecCall)
  | exit
  | wait (w : WaitCall)
  | sbrk (a : Arg)
  | shmem (a : Arg)
  | shmget (a : Arg)
  | shmemCount (a : Arg)
  | store (va : Nat) (b : UInt8)

/-- A call by the process in a slot. -/
structure MemAct where
  cur : Slot
  call : MemCall

/-- The code of a call. -/
def MemAct.code (base : Nat) (a : MemAct) : KernM Int :=
  match a.call with
  | .fork => OsLab.fork L a.cur
  | .fork2 b => sysFork2 L a.cur b
  | .exec c => OsLab.exec L a.cur c
  | .exit => OsLab.exit a.cur
  | .wait w => waitCall L base a.cur w
  | .sbrk b => sysSbrk L a.cur b
  | .shmem b => sysShmem L a.cur b
  | .shmget b => sysShmget a.cur b
  | .shmemCount b => sysShmemCount b
  | .store va b => userStore a.cur va b

/-- The process is one that can make a call. -/
def Proc.Active (p : Proc) : Prop := p.state ≠ .unused ∧ p.state ≠ .embryo ∧ p.state ≠ .zombie

instance (p : Proc) : Decidable p.Active := inferInstanceAs (Decidable (_ ∧ _ ∧ _))

/-- A whole call by an active process. A call that stops the machine leads nowhere. -/
def memStep (base : Nat) (s : Kern) (a : MemAct) : Option Kern :=
  if (s.table.proc a.cur).Active then
    match a.code L base s with
    | .ok (_, s') => some s'
    | .error _ => none
  else none

/-- The free list when `userinit` is called: `kinit2` has pushed the pages from 4 MiB to `PHYSTOP` on what is left of those
that `kinit1` gave. -/
def bootList (rest : List Frame) : List Frame := (List.range' 1024 (NFRAMES - 1024)).reverse ++ rest

/-- The pages of `userinit`: the kernel stack and the page directory of the first process. -/
def userinitPages (initcode : List UInt8) : PhysM (Frame × Frame) := do
  match ← kalloc with
  | none => throw .null
  | some k =>
    match ← setupkvm L with
    | none => throw .userinit
    | some d =>
      inituvm d initcode
      pure (k, d)

/-- What `main` starts `userinit` from: memory with anything in it, what is left of the pages of `kinit1`, and the first
program, which fits in a page. -/
structure BootData where
  mem : Frame → Nat → Nat
  rest : List Frame
  initcode : List UInt8
  rest_nodup : rest.Nodup
  rest_range : ∀ f ∈ rest, L.endFrame ≤ f ∧ f < 1024
  init_lt : initcode.length < PGSIZE

/-- The state after `userinit`. -/
def Boot (b : BootData L) (s : Kern) : Prop :=
  ∃ k d p, userinitPages L b.initcode { freelist := bootList b.rest, mem := b.mem, refreed := false } = .ok ((k, d), p) ∧
    s = { phys := p, table := userinit k d, regions := fun _ => { page := none, refcnt := 0 }, shmPages := fun _ => none }

/-- The system of the memory calls. -/
def memSys (base : Nat) : Sys Kern MemAct where
  init s := ∃ b, Boot L b s
  step := memStep L base

end

end OsLab
