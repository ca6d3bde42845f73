import OsLab.Vm

/-!
# Building the image of a program

The part of `exec.c` that builds a new address space: the headers of the file are read, its segments loaded, the user stack
allocated and the arguments pushed on it. What it has built is freed again on every path to `bad`.

What the disk holds is an argument: `file off n` is what `readi` copies when it is asked for `n` bytes at `off`.
-/

namespace OsLab

/-- A 32-bit number in little-endian bytes. -/
def le32 (bs : List UInt8) (i : Nat) : Nat :=
  let byte j := (bs.getD j 0).toNat
  byte i + 256 * byte (i + 1) + 256 ^ 2 * byte (i + 2) + 256 ^ 3 * byte (i + 3)

/-- A 16-bit number in little-endian bytes. -/
def le16 (bs : List UInt8) (i : Nat) : Nat := (bs.getD i 0).toNat + 256 * (bs.getD (i + 1) 0).toNat

/-- The bytes of a 32-bit number. -/
def wordBytes (w : Nat) : List UInt8 :=
  [UInt8.ofNat w, UInt8.ofNat (w / 256), UInt8.ofNat (w / 256 ^ 2), UInt8.ofNat (w / 256 ^ 3)]

/-- `ELF_MAGIC`. -/
def ELF_MAGIC : Nat := 0x464C457F

/-- `ELF_PROG_LOAD`. -/
def ELF_PROG_LOAD : Nat := 1

/-- `sizeof(struct elfhdr)`. -/
def ELFHDRSIZE : Nat := 52

/-- `sizeof(struct proghdr)`. -/
def PROGHDRSIZE : Nat := 32

/-- `struct elfhdr`, the fields that `exec` reads. -/
structure ElfHdr where
  magic : Nat
  entry : Nat
  phoff : Nat
  phnum : Nat
  deriving DecidableEq, Repr

/-- The file header in its bytes. -/
def ElfHdr.ofBytes (bs : List UInt8) : ElfHdr where
  magic := le32 bs 0
  entry := le32 bs 24
  phoff := le32 bs 28
  phnum := le16 bs 44

/-- `struct proghdr`, the fields that `exec` reads. -/
structure ProgHdr where
  type : Nat
  off : Nat
  vaddr : Nat
  filesz : Nat
  memsz : Nat
  deriving DecidableEq, Repr

/-- A program header in its bytes. -/
def ProgHdr.ofBytes (bs : List UInt8) : ProgHdr where
  type := le32 bs 0
  off := le32 bs 4
  vaddr := le32 bs 8
  filesz := le32 bs 16
  memsz := le32 bs 20

section

variable (L : Layout)

/-- The loop of `exec` over the program headers, with the number left: the size reached, or `none` when it goes to `bad`. -/
def execLoad (d : Frame) (file : Nat → Nat → List UInt8) : Nat → Nat → Nat → PhysM (Option Nat)
  | 0, _, sz => pure (some sz)
  | n + 1, off, sz =>
    let bs := (file off PROGHDRSIZE).take PROGHDRSIZE
    let ph := ProgHdr.ofBytes bs
    if bs.length ≠ PROGHDRSIZE then pure none
    else if ph.type ≠ ELF_PROG_LOAD then execLoad d file n (u32 (off + PROGHDRSIZE)) sz
    else if ph.memsz < ph.filesz then pure none
    else if u32 (ph.vaddr + ph.memsz) < ph.vaddr then pure none
    else do
      let sz ← allocuvm L d sz (u32 (ph.vaddr + ph.memsz))
      if sz = 0 then pure none
      else if ph.vaddr % PGSIZE ≠ 0 then pure none
      else if (← loaduvm d ph.vaddr file ph.off ph.filesz) < 0 then pure none
      else execLoad d file n (u32 (off + PROGHDRSIZE)) sz

/-- The stack pointer moved down by `n` bytes, and to a word boundary. -/
def pushed (sp n : Nat) : Nat := u32 (sp + 2 ^ 32 - u32 n) / 4 * 4

/-- The loop of `exec` over the arguments, with their number so far: the stack pointer and the addresses of the strings. -/
def execArgs (d : Frame) : List (List UInt8) → Nat → Nat → List Nat → PhysM (Option (Nat × List Nat))
  | [], _, sp, us => pure (some (sp, us))
  | s :: ss, argc, sp, us =>
    if MAXARG ≤ argc then pure none
    else do
      if (← copyout d (pushed sp (s.length + 1)) (s ++ [0])) < 0 then pure none
      else execArgs d ss (argc + 1) (pushed sp (s.length + 1)) (us ++ [pushed sp (s.length + 1)])

/-- `exec` from the loop over the arguments to the last `copyout`: the final stack pointer. -/
def execPush (d : Frame) (argv : List (List UInt8)) (sp : Nat) : PhysM (Option Nat) := do
  match ← execArgs d argv 0 sp [] with
  | none => pure none
  | some (sp, us) =>
    let argc := us.length
    let ustack := [0xffffffff, argc, u32 (sp + 2 ^ 32 - (argc + 1) * 4)] ++ us ++ [0]
    let sp := u32 (sp + 2 ^ 32 - (3 + argc + 1) * 4)
    if (← copyout d sp (ustack.flatMap wordBytes)) < 0 then pure none else pure (some sp)

/-- `exec` from the loop over the program headers on, in the page directory it has made: the size and the stack pointer. -/
def execFill (d : Frame) (file : Nat → Nat → List UInt8) (argv : List (List UInt8)) (elf : ElfHdr) :
    PhysM (Option (Nat × Nat)) := do
  match ← execLoad L d file elf.phnum elf.phoff 0 with
  | none => pure none
  | some sz =>
    let sz ← allocuvm L d (pgRoundUp sz) (u32 (pgRoundUp sz + 2 * PGSIZE))
    if sz = 0 then pure none
    else
      clearpteu d (sz - 2 * PGSIZE)
      match ← execPush d argv sz with
      | none => pure none
      | some sp => pure (some (sz, sp))

/-- A new address space, as `exec` commits to it. -/
structure Image where
  pgdir : Frame
  sz : Nat
  sp : Nat
  entry : Nat

/-- `exec` up to the commit. -/
def execImage (file : Nat → Nat → List UInt8) (argv : List (List UInt8)) : PhysM (Option Image) :=
  let bs := (file 0 ELFHDRSIZE).take ELFHDRSIZE
  let elf := ElfHdr.ofBytes bs
  if bs.length ≠ ELFHDRSIZE then pure none
  else if elf.magic ≠ ELF_MAGIC then pure none
  else do
    match ← setupkvm L with
    | none => pure none
    | some d =>
      match ← execFill L d file argv elf with
      | none =>
        freevm L d
        pure none
      | some (sz, sp) => pure (some { pgdir := d, sz := sz, sp := sp, entry := elf.entry })

end

end OsLab
