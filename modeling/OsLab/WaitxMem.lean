import OsLab.AddrSpace

/-!
# The stores of waitx

`sys_waitx` fetches its two addresses with `argint` and stores through them when it has found a zombie child. Here these stores go
through the page directory of the caller, which is the one loaded, as the processor does them: a page that is not there, or may not be
written, is a page fault in the kernel, and `trap` panics. `CR0_WP` is set, so this holds of the kernel's own stores as well.

A store above the user part goes into the process table, or somewhere else in the kernel, where the model does not follow it.
-/

namespace OsLab

/-- `*pte & PTE_W`. -/
def hasW (w : Nat) : Bool := w / 2 % 2 = 1

/-- The processor lets the kernel store at an address. -/
def Writable (m : Mem) (d : Frame) (va : Nat) : Prop :=
  hasP (m d (pdx va)) = true ∧ hasW (m d (pdx va)) = true ∧
    hasP (m (pteFrame (m d (pdx va))) (ptx va)) = true ∧ hasW (m (pteFrame (m d (pdx va))) (ptx va)) = true

instance (m : Mem) (d : Frame) (va : Nat) : Decidable (Writable m d va) := inferInstanceAs (Decidable (_ ∧ _ ∧ _ ∧ _))

/-- A byte stored at an address of the user part. -/
def storeByte (d : Frame) (va : Nat) (b : UInt8) : PhysM Unit := do
  let p ← get
  if Writable p.mem d va then set (p.poke (pteFrame (p.mem (pteFrame (p.mem d (pdx va))) (ptx va))) (va % PGSIZE) [b])
  else throw .trap

def storeBytes (d : Frame) : Nat → List UInt8 → PhysM Unit
  | _, [] => pure ()
  | va, b :: bs => do
    storeByte d va b
    storeBytes d (va + 1) bs

/-- `*(int*)addr = v` by the kernel, with the page directory `d` loaded and `ptable.proc` at `base`. -/
def storeWord (base : Nat) (d : Frame) (addr : Nat) (v : Int) : KernM Unit := do
  if addr + 4 ≤ KERNBASE then onPhys (storeBytes d addr (wordBytes (uintOf v)))
  else
    match storeInt base addr v (← get).table with
    | none => throw .stray
    | some t => onTable fun _ => t

/-- What a turn of the loop comes to. -/
inductive WaitEnd where
  | sleeps
  | returns (v : Int)
  deriving DecidableEq, Repr

section

variable (L : Layout) (base : Nat)

/-- `sys_waitx` when it has found the zombie child `i`. -/
def waitxFound (cur : Slot) (wtimeAddr rtimeAddr : Int) (i : Slot) : KernM WaitEnd := do
  let s ← get
  let p := s.table.proc i
  let d ← useFrame (s.table.proc cur).pgdir
  storeWord base d (uintOf wtimeAddr) (int32 (p.etime - p.ctime - p.rtime))
  storeWord base d (uintOf rtimeAddr) p.rtime
  -- the teardown is the one of `wait`
  let pid ← reapPages L (waitReap i (← get).table)
  pure (.returns pid)

/-- A turn of the loop of `sys_waitx`. -/
def waitxTurn (cur : Slot) (wtimeAddr rtimeAddr : Int) : KernM WaitEnd := do
  let t := (← get).table
  match waitScan (.waitx wtimeAddr rtimeAddr) cur t false slots with
  | .zombie i => waitxFound L base cur wtimeAddr rtimeAddr i
  | .none havekids =>
    if !havekids || (t.proc cur).killed != 0 then pure (.returns (-1))
    else
      onTable (sleepOn cur (.proc cur))
      pure .sleeps

/-- `sys_waitx`, up to its return or to the end of its first turn. A later turn is `waitxTurn` with the same addresses. -/
def sysWaitx (cur : Slot) (a b : Arg) : KernM WaitEnd :=
  match a, b with
  | some a, some b => waitxTurn L base cur a b
  | _, _ => pure (.returns (-1))

end

/-! ## What it may write -/

/-- The four bytes at an address lie in a process of `sz` bytes, and below the kernel. -/
def InProcess (sz addr : Nat) : Prop := addr + 4 ≤ sz ∧ addr + 4 ≤ KERNBASE

instance (sz addr : Nat) : Decidable (InProcess sz addr) := inferInstanceAs (Decidable (_ ∧ _))

/-- The byte at an offset of a page is one of the four at an address. -/
def Holds (m : Mem) (d : Frame) (addr : Nat) (f off : Nat) : Prop :=
  ∃ j < 4, frameAt m d ((addr + j) / PGSIZE) = f ∧ (addr + j) % PGSIZE = off

/-- Outside the process table and the free list, memory has changed at the four bytes at each of two addresses only. -/
structure WritesOnly (d : Frame) (wtime rtime : Nat) (s s' : Kern) : Prop where
  bytes : ∀ f off, off < PGSIZE → f ∉ s'.phys.freelist → ¬ Holds s.phys.mem d wtime f off → ¬ Holds s.phys.mem d rtime f off →
    byteOf (s'.phys.mem f) off = byteOf (s.phys.mem f) off
  regions : s'.regions = s.regions
  keys : s'.shmPages = s.shmPages

/-- A `sys_waitx` of `cur` that writes only where the caller may write: it returns -1 and nothing has changed, or goes to sleep with
nothing but the table changed, or returns when it has stored in the process. -/
def WaitxWrites (s : Kern) (cur : Slot) (a b : Arg) : Except Panic (WaitEnd × Kern) → Prop
  | .error _ => False
  | .ok (.sleeps, s') => s' = { s with table := s'.table }
  | .ok (.returns v, s') => v = -1 ∧ s' = s ∨
    ∃ x y d, a = some x ∧ b = some y ∧ (s.table.proc cur).pgdir = some d ∧ InProcess (s.table.proc cur).sz (uintOf x) ∧
      InProcess (s.table.proc cur).sz (uintOf y) ∧ WritesOnly d (uintOf x) (uintOf y) s s'

/-- When the call finds a zombie child, its addresses are in the process and may be written. -/
def WaitxFits (s : Kern) (cur : Slot) (a b : Arg) : Prop :=
  ∀ x y i d, a = some x → b = some y → waitScan (.waitx x y) cur s.table false slots = .zombie i →
    (s.table.proc cur).pgdir = some d → ∀ addr, addr = uintOf x ∨ addr = uintOf y →
      InProcess (s.table.proc cur).sz addr ∧ ∀ j < 4, Writable s.phys.mem d (addr + j)

/-! ## Page tables that are in order -/

/-- The page is the directory, or one of the page tables under it. -/
def InTree (m : Mem) (d f : Frame) : Prop := f = d ∨ ∃ k < 1024, hasP (m d k) = true ∧ pteFrame (m d k) = f

/-- The page is one of the allocator's. -/
def Managed (L : Layout) (f : Frame) : Prop := L.endFrame ≤ f ∧ f < NFRAMES

instance (L : Layout) (f : Frame) : Decidable (Managed L f) := inferInstanceAs (Decidable (_ ∧ _))

/-- An address space that can be torn down: its pages are the allocator's, the directory is not a page table of its own, and no user page
is a page of the tree. -/
structure TreeOk (L : Layout) (m : Mem) (d : Frame) : Prop where
  tree : ∀ f, InTree m d f → Managed L f
  dir : ∀ k < 1024, hasP (m d k) = true → pteFrame (m d k) ≠ d
  user : ∀ v < UPAGES, Mapped m d v → Managed L (frameAt m d v) ∧ ¬ InTree m d (frameAt m d v)

/-- The zombies can be reaped by `cur`: each has a kernel stack and an address space that can be torn down, and the user pages of the
caller are neither in the trees of these nor in its own. -/
structure Reapable (L : Layout) (s : Kern) (cur : Slot) : Prop where
  caller : ∃ d, (s.table.proc cur).pgdir = some d ∧ ∀ v < UPAGES, Mapped s.phys.mem d v → ¬ InTree s.phys.mem d (frameAt s.phys.mem d v)
  child : ∀ i, (s.table.proc i).state = .zombie → ∃ k e, (s.table.proc i).kstack = some k ∧ (s.table.proc i).pgdir = some e ∧
    Managed L k ∧ ¬ InTree s.phys.mem e k ∧ TreeOk L s.phys.mem e
  apart : ∀ i d e, (s.table.proc i).state = .zombie → (s.table.proc cur).pgdir = some d → (s.table.proc i).pgdir = some e →
    ∀ v < UPAGES, Mapped s.phys.mem d v → ¬ InTree s.phys.mem e (frameAt s.phys.mem d v)

end OsLab
