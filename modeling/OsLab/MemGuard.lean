import OsLab.AddrSpace

/-!
# Calls that keep memory in order

The generic teardown of an address space (`deallocuvm`, `freevm`) frees every page that it finds, also the page of a shared
region, which `shmtable` goes on to hand out. `KeepsRegions` says of a call that it does not come to that. `ArgsOk` excludes
arguments that make the kernel read or write outside of what the call is about, `ShmgetBelow` a `shmget` that would take the
process up to the kernel, and `SbrkPositive` an `sbrk` that takes all the pages of a process away and then reports failure.

Each is a condition on the state in which the call is made.
-/

namespace OsLab

section

variable (L : Layout) (base : Nat) (s : Kern) (a : MemAct)

/-- No page from `lo` to `hi` of the process in slot `i` shows a page that `shmtable` records. -/
def SharesNone (i : Slot) (lo hi : Nat) : Prop :=
  ∀ d, (s.table.proc i).pgdir = some d → ∀ v, lo ≤ v → v < hi → Mapped s.phys.mem d v →
    ∀ r, (s.regions r).page ≠ some (frameAt s.phys.mem d v)

/-- The call tears down no mapping of a shared region: a shrinking process has none in what it gives up, one that replaces
itself and a child that is reaped have none at all. -/
def KeepsRegions : Prop :=
  match a.call with
  | .sbrk (some n) =>
    n < 0 → SharesNone s a.cur (pages (uintOf ((s.table.proc a.cur).sz + n))) (pages (s.table.proc a.cur).sz)
  | .exec c => ∀ file im p, c.file = some file → execImage L file c.argv s.phys = .ok (some im, p) → SharesNone s a.cur 0 UPAGES
  | .wait w => ∀ i r, waitPass base w a.cur s.table = some (.reaped i r) → SharesNone s i 0 UPAGES
  | _ => True

/-- The argument strings of `exec` keep the stack pointer out of the hole below the devices, and the addresses of `waitx` are
in user space. -/
def ArgsOk : Prop :=
  match a.call with
  | .exec c => ∀ str ∈ c.argv, str.length + 1 ≤ STRMAX
  | .wait w => w.UserAddrs
  | _ => True

/-- The call keeps memory in order. -/
def MemOk : Prop := KeepsRegions L base s a ∧ ArgsOk a

/-- After a `shmget` the process would still end below the kernel. -/
def ShmgetBelow : Prop :=
  match a.call with
  | .shmget _ => (pages (s.table.proc a.cur).sz + 1) * PGSIZE < KERNBASE
  | _ => True

/-- An `sbrk` leaves a process that has a size some size. -/
def SbrkPositive : Prop :=
  match a.call with
  | .sbrk (some n) => n < 0 → 0 < (s.table.proc a.cur).sz → uintOf ((s.table.proc a.cur).sz + n) ≠ 0
  | _ => True

end

end OsLab
