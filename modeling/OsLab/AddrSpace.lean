import OsLab.MemCalls
import Mathlib.Algebra.BigOperators.Fin

/-!
# Who owns a page

The abstract view of physical memory: every page that the allocator manages has one owner. It is free, or it is the kernel
stack of a slot, the directory of an address space, one of its page tables, one of its user pages, the page of a shared
region or the page of a `shmem` key.

`PhysOk` ties the owners to the free list, `Tables` and `Space` tie them to what the page tables in memory say, and `Local`
says that a function has touched some address spaces only. The owners are not part of the state: the invariant of a run says
that there are some that fit.
-/

namespace OsLab

/-- The contents of physical memory. -/
abbrev Mem := Frame → Nat → Nat

/-- The owner of a page. -/
inductive Owner where
  /-- The allocator has nothing to do with it. -/
  | outside
  /-- It is on the free list. -/
  | free
  /-- It has been taken from the free list and not been put to use yet, or never will be. -/
  | loose
  | stack (i : Slot)
  | dir (d : Frame)
  /-- The page table under entry `k` of the directory `d`. -/
  | table (d : Frame) (k : Nat)
  /-- The user page number `v` of the address space with directory `d`. -/
  | user (d : Frame) (v : Nat)
  | region (r : Fin NSHM)
  | shm (k : Fin SHM_NKEYS)
  deriving DecidableEq

/-- An owner for every page. -/
abbrev Own := Frame → Owner

/-- The free list has the free pages, each once, the pages that are owned are of the allocator's, and no page was freed
twice. -/
structure PhysOk (L : Layout) (own : Own) (p : Phys) : Prop where
  nodup : p.freelist.Nodup
  free_iff : ∀ f, f ∈ p.freelist ↔ own f = .free
  range : ∀ f, own f ≠ .outside → L.endFrame ≤ f ∧ f < NFRAMES
  fresh : p.refreed = false

/-! ## Address spaces -/

/-- The pages below `KERNBASE`. -/
def UPAGES : Nat := KERNBASE / PGSIZE

/-- The pages of a 32-bit address space. -/
def VPAGES : Nat := 2 ^ 20

/-- The number of the page at which the devices begin. -/
def DEVPAGE : Nat := DEVSPACE / PGSIZE

/-- The bytes of an argument string with its zero that keep the stack pointer of `exec` out of the hole below the devices: the
size of the devices. -/
def STRMAX : Nat := 2 ^ 32 - DEVSPACE

/-- The pages that `sz` bytes reach into: `PGROUNDUP(sz) / PGSIZE`. -/
def pages (sz : Nat) : Nat := (sz + PGSIZE - 1) / PGSIZE

/-- The page-table entry for the page number `v`, and zero when there is no page table for it. -/
def pte (m : Mem) (d : Frame) (v : Nat) : Nat :=
  if hasP (m d (v / 1024)) then m (pteFrame (m d (v / 1024))) (v % 1024) else 0

/-- The page number `v` is mapped. -/
def Mapped (m : Mem) (d : Frame) (v : Nat) : Prop := hasP (pte m d v) = true

instance (m : Mem) (d : Frame) (v : Nat) : Decidable (Mapped m d v) := inferInstanceAs (Decidable (_ = _))

/-- The page number `v` is mapped, and the user may use it. -/
def UserMapped (m : Mem) (d : Frame) (v : Nat) : Prop := Mapped m d v ∧ hasU (pte m d v) = true

instance (m : Mem) (d : Frame) (v : Nat) : Decidable (UserMapped m d v) := inferInstanceAs (Decidable (_ ∧ _))

/-- The page that the page number `v` is mapped to. -/
def frameAt (m : Mem) (d : Frame) (v : Nat) : Frame := pteFrame (pte m d v)

/-- The byte that a user program reads at an address. -/
def userByte (m : Mem) (d : Frame) (va : Nat) : Option UInt8 :=
  if UserMapped m d (va / PGSIZE) then some (byteOf (m (frameAt m d (va / PGSIZE))) (va % PGSIZE)) else none

/-- The directory and the page tables under it are those of the address space `d`, each under its own entry. -/
structure Tables (own : Own) (m : Mem) (d : Frame) : Prop where
  dir : own d = .dir d
  table : ∀ k < 1024, hasP (m d k) = true → own (pteFrame (m d k)) = .table d k

/-- The shared region that shows at each user page of an address space, where one does. -/
abbrev Share := Nat → Option (Fin NSHM)

/-- No region shows anywhere. -/
def noShare : Share := fun _ => none

/-- The owner of what is mapped at the page number `v` of the address space `d`. -/
def Share.owner (sh : Share) (d : Frame) (v : Nat) : Owner :=
  match sh v with
  | none => .user d v
  | some r => .region r

/-- The pages at which the region `r` shows. -/
def Share.count (sh : Share) (r : Fin NSHM) : Nat := ((Finset.range UPAGES).filter fun v => sh v = some r).card

/-- An address space of `n` user pages. A user page that is mapped is one of them, and shows a page of this address space or,
where `sh` says so, of a shared region; every one of them has a page table; and when `strict` all of them are mapped. The
first page of the kernel is mapped, there are page tables for the devices, and nothing of the kernel part is in the user's
reach. -/
structure Space (strict : Bool) (sh : Share) (own : Own) (m : Mem) (d : Frame) (n : Nat) : Prop extends Tables own m d where
  le : n ≤ UPAGES
  page : ∀ v < UPAGES, Mapped m d v → v < n ∧ own (frameAt m d v) = sh.owner d v
  shows : ∀ v r, sh v = some r → v < UPAGES ∧ Mapped m d v
  reach : ∀ v < n, hasP (m d (v / 1024)) = true
  full : strict = true → ∀ v < n, Mapped m d v
  kern : Mapped m d UPAGES
  dev : ∀ v, DEVPAGE ≤ v → v < VPAGES → hasP (m d (v / 1024)) = true
  guarded : ∀ v, UPAGES ≤ v → v < VPAGES → hasU (pte m d v) = false

/-- The user pages from `lo` to `hi` that are mapped are pages of this address space. -/
def Private (own : Own) (m : Mem) (d : Frame) (lo hi : Nat) : Prop :=
  ∀ v, lo ≤ v → v < hi → Mapped m d v → own (frameAt m d v) = .user d v

/-- The directory entries of `d` that have no page table. -/
def absent (m : Mem) (d : Frame) : Nat := ((Finset.range 1024).filter fun k => hasP (m d k) = false).card

/-- The page tables that the page number `v` still needs. -/
def lacks (m : Mem) (d : Frame) (v : Nat) : Nat := if hasP (m d (v / 1024)) = true then 0 else 1

/-- There are not enough free pages to add the pages from `n` to `n'`, or the one page. -/
def Short (p : Phys) (d : Frame) (n n' : Nat) : Prop :=
  p.freelist.length < n' - n + absent p.mem d ∧ (n' = n + 1 → p.freelist.length < 1 + lacks p.mem d n)

/-! ## What a function may touch -/

/-- The owner is the allocator, nobody, or one of the address spaces in `D`. -/
def Owner.Within (D : Frame → Prop) : Owner → Prop
  | .free | .loose => True
  | .dir d | .table d _ | .user d _ => D d
  | _ => False

/-- The page holds what only the kernel writes: a directory, a page table, or the page of a `shmem` key. -/
def Owner.KernelOnly : Owner → Prop
  | .dir _ | .table _ _ | .shm _ => True
  | _ => False

/-- The page holds the directory or a page table of `d`. -/
def Owner.TreeOf (d : Frame) : Owner → Prop
  | .dir e | .table e _ => e = d
  | _ => False

/-- The page is one that the address space `d` may lead to. -/
def Owner.UsedBy (d : Frame) : Owner → Prop
  | .dir e | .table e _ | .user e _ => e = d
  | .region _ => True
  | _ => False

/-- From one state of memory to another, only free pages and those of the address spaces in `D` change hands, and what only the
kernel writes stays elsewhere. -/
structure Local (D : Frame → Prop) (own own' : Own) (m m' : Mem) : Prop where
  keep : ∀ f, ¬ (own f).Within D → own' f = own f
  mem : ∀ f, ¬ (own f).Within D → (own f).KernelOnly → m' f = m f
  stay : ∀ f, (own f).Within D → (own' f).Within D

/-- Page tables have been added to the address space `d`, one page for each new directory entry, and nothing that was owned
has changed hands. -/
structure Walked (L : Layout) (d : Frame) (own own' : Own) (p p' : Phys) : Prop where
  phys : PhysOk L own' p'
  tables : Tables own' p'.mem d
  near : Local (· = d) own own' p.mem p'.mem
  keep : ∀ f, own f ≠ .free → own' f = own f
  dirs : ∀ k < 1024, hasP (p.mem d k) = true → hasP (p'.mem d k) = true
  budget : p'.freelist.length + absent p.mem d = p.freelist.length + absent p'.mem d

/-- The user pages of `d` from `lo` to `hi` have been unmapped and freed. -/
structure Unmapped (L : Layout) (d : Frame) (lo hi : Nat) (own own' : Own) (p p' : Phys) : Prop where
  phys : PhysOk L own' p'
  tables : Tables own' p'.mem d
  near : Local (· = d) own own' p.mem p'.mem
  dirs : p'.mem d = p.mem d
  hands : ∀ f, own' f = own f ∨ own' f = .free ∧ ∃ u, lo ≤ u ∧ u < hi ∧ own f = .user d u
  others : ∀ u < VPAGES, u < lo ∨ hi ≤ u → pte p'.mem d u = pte p.mem d u
  gone : ∀ u, lo ≤ u → u < hi → ¬ Mapped p'.mem d u
  freed : ∀ u, lo ≤ u → u < hi → Mapped p.mem d u → own' (frameAt p.mem d u) = .free

/-! ## The kernel -/

/-- The process in slot `i` has the address space `d` and the kernel stack `k`, and at most `lim` bytes. -/
structure Lives (strict : Bool) (lim : Nat) (own : Own) (sh : Share) (m : Mem) (i : Slot) (p : Proc) (d k : Frame) :
    Prop where
  pgdir : p.pgdir = some d
  kstack : p.kstack = some k
  stack : own k = .stack i
  size : p.sz ≤ lim
  space : Space strict sh own m d (pages p.sz)

/-- The owners fit the kernel state: every process has its own kernel stack and address space, of at most `lim` bytes; the
pages that the shared memory tables record are theirs, and those of the `shmem` keys are as they were zeroed; and the count of
a region is the number of places where it shows. -/
structure KernOk (L : Layout) (strict : Bool) (lim : Nat) (own : Own) (sh : Slot → Share) (s : Kern) : Prop where
  phys : PhysOk L own s.phys
  lives : ∀ i, (s.table.proc i).state ≠ .unused → ∃ d k, Lives strict lim own (sh i) s.phys.mem i (s.table.proc i) d k
  idle : ∀ i, (s.table.proc i).state = .unused → sh i = noShare
  apart : ∀ i j, (s.table.proc i).state ≠ .unused → (s.table.proc j).state ≠ .unused →
    (s.table.proc i).pgdir = (s.table.proc j).pgdir → i = j
  regions : ∀ r f, own f = .region r ↔ (s.regions r).page = some f
  keys : ∀ k f, s.shmPages k = some f → own f = .shm k ∧ s.phys.mem f = fun _ => 0
  counts : ∀ r, (s.regions r).refcnt = (∑ i, (sh i).count r : Nat)

/-- There are owners that fit. -/
def KernInv (L : Layout) (strict : Bool) (lim : Nat) (s : Kern) : Prop := ∃ own sh, KernOk L strict lim own sh s

end OsLab
