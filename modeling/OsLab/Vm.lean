import OsLab.Lib.Cmd
import OsLab.Machine
import Mathlib.Logic.Function.Basic

/-!
# Physical memory and page tables

The page allocator of `kalloc.c` and the page tables of `vm.c`, over physical memory as words: `mem f i` is the 32-bit word
at offset `4 * i` of the page with number `f`. Page directories and page tables lie in that memory and are read back from
it, so what an entry says is what was last written there.

A kernel pointer to a page is the number of its frame, a pointer to a page-table entry is a frame and an index, and null is
`none`. An address is a natural number below `2 ^ 32`, reduced where the C code can wrap. A call that panics, or that would
go through a null pointer, stops the machine.
-/

namespace OsLab

/-- Why the machine stops. -/
inductive Panic where
  /-- `panic("kfree")`. -/
  | kfree
  /-- `panic("remap")`. -/
  | remap
  /-- `panic("PHYSTOP too high")`. -/
  | phystop
  /-- `panic("freevm: no pgdir")`. -/
  | noPgdir
  /-- `panic("inituvm: more than a page")`. -/
  | inituvmSize
  /-- `panic("loaduvm: addr must be page aligned")`. -/
  | loaduvmAlign
  /-- `panic("loaduvm: address should exist")`. -/
  | loaduvmExist
  /-- `panic("clearpteu")`. -/
  | clearpteu
  /-- `panic("copyuvm: pte should exist")`. -/
  | copyuvmExist
  /-- `panic("copyuvm: page not present")`. -/
  | copyuvmPresent
  /-- `panic("userinit: out of memory?")`. -/
  | userinit
  /-- `panic("init exiting")`. -/
  | initExiting
  /-- `panic("switchuvm: no kstack")`. -/
  | switchKstack
  /-- `panic("switchuvm: no pgdir")`. -/
  | switchPgdir
  /-- `panic("trap")`: a page fault in the kernel. -/
  | trap
  /-- `panic("filedup")`. -/
  | filedup
  /-- A null pointer is used: the page that `inituvm` did not get, the entry that `uva2ka` did not find, or a page directory
  that is not there. -/
  | null
  /-- The kernel writes at an address of its own that the caller chose. -/
  | stray
  deriving DecidableEq, Repr

/-- Where the linker put the kernel: the page on which its data begins and the first whole page after its end. The kernel
begins at `EXTMEM` and the boot page table that it starts on maps 4 MiB. -/
structure Layout where
  dataFrame : Nat
  endFrame : Nat
  text_lt : EXTMEM / PGSIZE < dataFrame
  data_le : dataFrame ≤ endFrame
  end_le : endFrame ≤ 1024

/-- Physical memory, the free list of `kalloc.c` and, for the record, whether `kfree` was ever given a page that was free
already. -/
structure Phys where
  freelist : List Frame
  mem : Frame → Nat → Nat
  refreed : Bool

/-- A kernel function on physical memory. -/
abbrev PhysM (α : Type) := Cmd Panic Phys α

/-! ## Words and bytes -/

/-- `PTE_P`: the entry is present. -/
def PTE_P : Nat := 1

/-- `PTE_W`: the page may be written. -/
def PTE_W : Nat := 2

/-- `PTE_U`: the user may use the page. -/
def PTE_U : Nat := 4

/-- `*pte & PTE_P`. -/
def hasP (w : Nat) : Bool := w % 2 = 1

/-- `*pte & PTE_U`. -/
def hasU (w : Nat) : Bool := w / 4 % 2 = 1

/-- `PTE_ADDR`, as the number of the page. -/
def pteFrame (w : Nat) : Frame := w / PGSIZE

/-- `PTE_FLAGS`. -/
def pteFlags (w : Nat) : Nat := w % PGSIZE

/-- `PDX`: the index of an address in a page directory. -/
def pdx (va : Nat) : Nat := va / 2 ^ 22 % 1024

/-- `PTX`: the index of an address in a page table. -/
def ptx (va : Nat) : Nat := va / PGSIZE % 1024

/-- `PGROUNDUP`, on a `uint`. -/
def pgRoundUp (n : Nat) : Nat := u32 (n + PGSIZE - 1) / PGSIZE * PGSIZE

/-- `PGROUNDDOWN`. -/
def pgRoundDown (n : Nat) : Nat := n / PGSIZE * PGSIZE

/-- The byte at an offset of a page. -/
def byteOf (page : Nat → Nat) (off : Nat) : UInt8 := UInt8.ofNat (page (off / 4) / 256 ^ (off % 4))

/-- The bytes of a page. -/
def pageBytes (page : Nat → Nat) : List UInt8 := (List.range PGSIZE).map (byteOf page)

/-- A page after bytes have been written into it from an offset on. -/
def pokePage (page : Nat → Nat) (off : Nat) (bs : List UInt8) : Nat → Nat := fun i =>
  let byte j := (if off ≤ j then (bs[j - off]?).getD (byteOf page j) else byteOf page j).toNat
  byte (4 * i) + 256 * byte (4 * i + 1) + 256 ^ 2 * byte (4 * i + 2) + 256 ^ 3 * byte (4 * i + 3)

namespace Phys

/-- A page with new contents. -/
def setPage (p : Phys) (f : Frame) (page : Nat → Nat) : Phys := { p with mem := Function.update p.mem f page }

/-- A word written. -/
def setWord (p : Phys) (f : Frame) (i w : Nat) : Phys := p.setPage f (Function.update (p.mem f) i w)

/-- `memset` of a whole page. -/
def fill (p : Phys) (f : Frame) (w : Nat) : Phys := p.setPage f fun _ => w

/-- Bytes copied into a page. -/
def poke (p : Phys) (f : Frame) (off : Nat) (bs : List UInt8) : Phys := p.setPage f (pokePage (p.mem f) off bs)

end Phys

/-! ## The page allocator -/

section

variable (L : Layout)

/-- The address of a page as the kernel uses it, and null. -/
def kernelAddr (f : Option Frame) : Nat :=
  match f with
  | none => 0
  | some f => KERNBASE + f * PGSIZE

/-- `kalloc`. -/
def kalloc : PhysM (Option Frame) := do
  let p ← get
  match p.freelist with
  | [] => pure none
  | f :: l =>
    set { p with freelist := l }
    pure (some f)

/-- `kfree`: the page is filled with junk and pushed on the free list, which goes through the first word of its pages. -/
def kfree (f : Frame) : PhysM Unit := do
  let p ← get
  if f < L.endFrame ∨ NFRAMES ≤ f then throw .kfree
  else
    set { (p.fill f 0x01010101).setWord f 0 (kernelAddr p.freelist.head?) with
      freelist := f :: p.freelist
      refreed := p.refreed || decide (f ∈ p.freelist) }

/-! ## Page tables -/

/-- `walkpgdir`. -/
def walkpgdir (d : Frame) (va : Nat) (alloc : Bool) : PhysM (Option (Frame × Nat)) := do
  let p ← get
  if hasP (p.mem d (pdx va)) then pure (some (pteFrame (p.mem d (pdx va)), ptx va))
  else if alloc then
    match ← kalloc with
    | none => pure none
    | some t =>
      modify fun p => (p.fill t 0).setWord d (pdx va) (t * PGSIZE ||| PTE_P ||| PTE_W ||| PTE_U)
      pure (some (t, ptx va))
  else pure none

/-- The loop of `mappages`, with the number of turns until `a == last`. -/
def mapLoop (d : Frame) (perm : Nat) : Nat → Nat → Nat → PhysM Int
  | 0, _, _ => pure 0
  | n + 1, a, pa => do
    match ← walkpgdir d a true with
    | none => pure (-1)
    | some (t, i) =>
      let p ← get
      if hasP (p.mem t i) then throw .remap
      else
        set (p.setWord t i (pa ||| perm ||| PTE_P))
        mapLoop d perm n (u32 (a + PGSIZE)) (u32 (pa + PGSIZE))

/-- `mappages`: from the page of `va` to the page of `va + size - 1`. -/
def mappages (d : Frame) (va size pa perm : Nat) : PhysM Int :=
  let a := pgRoundDown va
  let last := pgRoundDown (u32 (va + size - 1))
  mapLoop d perm (u32 (last + 2 ^ 32 - a) / PGSIZE + 1) a pa

/-- The loop of `deallocuvm`. A missing page table takes `a` to the next directory entry. -/
def deallocLoop (d : Frame) (oldsz : Nat) : Nat → Nat → PhysM Unit
  | 0, _ => pure ()
  | turns + 1, a =>
    if a < oldsz then do
      match ← walkpgdir d a false with
      | none => deallocLoop d oldsz turns (u32 ((pdx a + 1) * 2 ^ 22))
      | some (t, i) =>
        let p ← get
        if hasP (p.mem t i) then
          if pteFrame (p.mem t i) = 0 then throw .kfree
          else
            kfree L (pteFrame (p.mem t i))
            modify fun p => p.setWord t i 0
            deallocLoop d oldsz turns (u32 (a + PGSIZE))
        else deallocLoop d oldsz turns (u32 (a + PGSIZE))
    else pure ()

/-- `deallocuvm`. Every turn of the loop moves on by a page at least. -/
def deallocuvm (d : Frame) (oldsz newsz : Nat) : PhysM Nat :=
  if oldsz ≤ newsz then pure oldsz
  else do
    deallocLoop L d oldsz ((oldsz + PGSIZE - 1) / PGSIZE) (pgRoundUp newsz)
    pure newsz

/-- The loop of `freevm` over the page directory. -/
def freeTables (d : Frame) : List Nat → PhysM Unit
  | [] => pure ()
  | i :: is => do
    let p ← get
    if hasP (p.mem d i) then
      kfree L (pteFrame (p.mem d i))
      freeTables d is
    else freeTables d is

/-- `freevm` of a page directory that is there. -/
def freevm (d : Frame) : PhysM Unit := do
  let _ ← deallocuvm L d KERNBASE 0
  freeTables L d (List.range 1024)
  kfree L d

/-- `kmap`: the address, the physical range and the permissions of each of the kernel's mappings. -/
def kmap : List (Nat × Nat × Nat × Nat) :=
  [(KERNBASE, 0, EXTMEM, PTE_W),
   (KERNBASE + EXTMEM, EXTMEM, L.dataFrame * PGSIZE, 0),
   (KERNBASE + L.dataFrame * PGSIZE, L.dataFrame * PGSIZE, PHYSTOP, PTE_W),
   (DEVSPACE, DEVSPACE, 0, PTE_W)]

/-- The loop of `setupkvm`. -/
def setupLoop (d : Frame) : List (Nat × Nat × Nat × Nat) → PhysM (Option Frame)
  | [] => pure (some d)
  | (virt, start, stop, perm) :: ks => do
    if (← mappages d virt (u32 (stop + 2 ^ 32 - start)) start perm) < 0 then
      freevm L d
      pure none
    else setupLoop d ks

/-- `setupkvm`. -/
def setupkvm : PhysM (Option Frame) := do
  match ← kalloc with
  | none => pure none
  | some d =>
    modify fun p => p.fill d 0
    if DEVSPACE < KERNBASE + PHYSTOP then throw .phystop
    else setupLoop L d (kmap L)

/-- `inituvm`. Nothing is done about a `mappages` that fails. -/
def inituvm (d : Frame) (init : List UInt8) : PhysM Unit :=
  if PGSIZE ≤ init.length then throw .inituvmSize
  else do
    match ← kalloc with
    | none => throw .null
    | some f =>
      modify fun p => p.fill f 0
      let _ ← mappages d 0 PGSIZE (f * PGSIZE) (PTE_W ||| PTE_U)
      modify fun p => p.poke f 0 init

/-- The loop of `loaduvm`, with the bytes still to load and the offset reached. `file off n` is what `readi` copies when it is
asked for `n` bytes at `off`: fewer than `n` when it comes to the end of the file or fails. -/
def loadLoop (d : Frame) (file : Nat → Nat → List UInt8) (addr offset sz : Nat) : Nat → Nat → PhysM Int
  | 0, _ => pure 0
  | turns + 1, i =>
    if i < sz then do
      match ← walkpgdir d (u32 (addr + i)) false with
      | none => throw .loaduvmExist
      | some (t, j) =>
        let p ← get
        let n := min (sz - i) PGSIZE
        let bs := (file (u32 (offset + i)) n).take n
        set (p.poke (pteFrame (p.mem t j)) 0 bs)
        if bs.length ≠ n then pure (-1) else loadLoop d file addr offset sz turns (u32 (i + PGSIZE))
    else pure 0

/-- `loaduvm`. -/
def loaduvm (d : Frame) (addr : Nat) (file : Nat → Nat → List UInt8) (offset sz : Nat) : PhysM Int :=
  if addr % PGSIZE ≠ 0 then throw .loaduvmAlign
  else loadLoop d file addr offset sz ((sz + PGSIZE - 1) / PGSIZE) 0

/-- The loop of `allocuvm`. -/
def allocLoop (d : Frame) (oldsz newsz : Nat) : Nat → Nat → PhysM Nat
  | 0, _ => pure newsz
  | turns + 1, a =>
    if a < newsz then do
      match ← kalloc with
      | none =>
        let _ ← deallocuvm L d newsz oldsz
        pure 0
      | some f =>
        modify fun p => p.fill f 0
        if (← mappages d a PGSIZE (f * PGSIZE) (PTE_W ||| PTE_U)) < 0 then
          let _ ← deallocuvm L d newsz oldsz
          kfree L f
          pure 0
        else allocLoop d oldsz newsz turns (u32 (a + PGSIZE))
    else pure newsz

/-- `allocuvm`. -/
def allocuvm (d : Frame) (oldsz newsz : Nat) : PhysM Nat :=
  if KERNBASE ≤ newsz then pure 0
  else if newsz < oldsz then pure oldsz
  else allocLoop L d oldsz newsz ((newsz + PGSIZE - 1) / PGSIZE) (pgRoundUp oldsz)

/-- `clearpteu`. -/
def clearpteu (d : Frame) (va : Nat) : PhysM Unit := do
  match ← walkpgdir d va false with
  | none => throw .clearpteu
  | some (t, i) => modify fun p => p.setWord t i (p.mem t i - p.mem t i / 4 % 2 * PTE_U)

/-- The loop of `copyuvm`: `false` when it goes to `bad`. -/
def copyLoop (pgdir d : Frame) (sz : Nat) : Nat → Nat → PhysM Bool
  | 0, _ => pure true
  | turns + 1, i =>
    if i < sz then do
      match ← walkpgdir pgdir i false with
      | none => throw .copyuvmExist
      | some (t, j) =>
        let w := (← get).mem t j
        if !hasP w then throw .copyuvmPresent
        else
          match ← kalloc with
          | none => pure false
          | some f =>
            modify fun p => p.setPage f (p.mem (pteFrame w))
            if (← mappages d i PGSIZE (f * PGSIZE) (pteFlags w)) < 0 then
              kfree L f
              pure false
            else copyLoop pgdir d sz turns (u32 (i + PGSIZE))
    else pure true

/-- `copyuvm`. -/
def copyuvm (pgdir : Frame) (sz : Nat) : PhysM (Option Frame) := do
  match ← setupkvm L with
  | none => pure none
  | some d =>
    if ← copyLoop L pgdir d sz ((sz + PGSIZE - 1) / PGSIZE) 0 then pure (some d)
    else
      freevm L d
      pure none

/-- `uva2ka`. There is no check that the entry was found. -/
def uva2ka (d : Frame) (va : Nat) : PhysM (Option Frame) := do
  match ← walkpgdir d va false with
  | none => throw .null
  | some (t, i) =>
    let w := (← get).mem t i
    if hasP w && hasU w then pure (some (pteFrame w)) else pure none

/-- The loop of `copyout`. -/
def copyoutLoop (d : Frame) : Nat → Nat → List UInt8 → PhysM Int
  | 0, _, _ => pure 0
  | turns + 1, va, bs =>
    if bs.length = 0 then pure 0
    else do
      let va0 := pgRoundDown va
      match ← uva2ka d va0 with
      | none => pure (-1)
      | some f =>
        let n := min (PGSIZE - (va - va0)) bs.length
        modify fun p => p.poke f (va - va0) (bs.take n)
        copyoutLoop d turns (u32 (va0 + PGSIZE)) (bs.drop n)

/-- `copyout`. Every turn copies a byte at least. -/
def copyout (d : Frame) (va : Nat) (bs : List UInt8) : PhysM Int := copyoutLoop d bs.length va bs

end

end OsLab
