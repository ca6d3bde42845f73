import OsLab.Lib.Cmd
import OsLab.Lib.Links
import OsLab.Machine

/-!
# The buffer cache

`bio.c` over the disk: `NBUF` buffers in a ring by recency of use, each with a sleep lock, a count of references, the flags `B_VALID`
and `B_DIRTY` and a copy of a block. `iderw` of `ide.c` is taken as it comes back to its caller: the request has been carried out, by
the disk, on the block that the buffer names.

`bget` has two parts, under `bcache.lock` and under the sleep lock of the buffer it found (`bgetFind`, `acquiresleep`), and so has
`brelse` (`releasesleep`, `bput`); other processes come in between. A process that finds a sleep lock taken waits: the call cannot go
on from such a state, which is what `wait` says.
-/

namespace OsLab

/-- `BSIZE`: the bytes of a block. -/
abbrev BSIZE : Nat := 512

/-- `MAXOPBLOCKS`: the blocks that one operation may write. -/
def MAXOPBLOCKS : Nat := 10

/-- `LOGSIZE`: the blocks that the log holds. -/
def LOGSIZE : Nat := MAXOPBLOCKS * 3

/-- `NBUF`: the buffers of the cache. -/
abbrev NBUF : Nat := 30

/-- `FSSIZE`: the blocks of the disk. -/
def FSSIZE : Nat := 1000

/-- `ROOTDEV`: the device of the file system. -/
def ROOTDEV : Nat := 1

instance instNeZeroBSIZE : NeZero BSIZE := ⟨by decide⟩

instance instNeZeroNBUF : NeZero NBUF := ⟨by decide⟩

/-- Why a call of the file system does not come back. -/
inductive FsStop where
  /-- It waits for a sleep lock. -/
  | wait
  /-- `panic("bget: no buffers")`. -/
  | bget
  /-- `panic("bwrite")`. -/
  | bwrite
  /-- `panic("brelse")`. -/
  | brelse
  /-- `panic("iderw: buf not locked")`. -/
  | iderwLock
  /-- `panic("iderw: nothing to do")`. -/
  | iderwIdle
  /-- `panic("incorrect blockno")`. -/
  | blockno
  /-- `panic("too big a transaction")`. -/
  | tooBig
  /-- `panic("log_write outside of trans")`. -/
  | outside
  deriving DecidableEq, Repr

/-- The contents of a block. -/
abbrev Block := Fin BSIZE → UInt8

/-- A block of zeros. -/
def Block.zero : Block := fun _ => 0

/-! ## Buffers -/

/-- `struct buf`. The sleep lock is the process that holds it. -/
structure Buf where
  valid : Bool
  dirty : Bool
  dev : Nat
  blockno : Nat
  lock : Option Nat
  refcnt : Nat
  data : Block

/-- A buffer before it is first used. -/
def Buf.unused : Buf := ⟨false, false, 0, 0, none, 0, Block.zero⟩

/-- `bcache`: the buffers and the ring of them, the most recently used first. -/
structure Bcache where
  buf : Fin NBUF → Buf
  links : Links (Fin NBUF)

/-- `binit`. -/
def binit : Bcache where
  buf := fun _ => Buf.unused
  links := (List.finRange NBUF).foldl Links.pushFront Links.empty

/-- The blocks of the disks, by device and number, and the cache. -/
structure Io where
  disk : Nat → Nat → Block
  bc : Bcache

/-- A function on buffers. -/
abbrev IoM (α : Type) := Cmd FsStop Io α

namespace Bcache

/-- One buffer changed. -/
def modify (bc : Bcache) (i : Fin NBUF) (f : Buf → Buf) : Bcache :=
  { bc with buf := Function.update bc.buf i (f (bc.buf i)) }

end Bcache

namespace Io

/-- One buffer changed. -/
def modify (s : Io) (i : Fin NBUF) (f : Buf → Buf) : Io := { s with bc := s.bc.modify i f }

/-- A block of a disk written. -/
def write (s : Io) (dev b : Nat) (data : Block) : Io :=
  { s with disk := Function.update s.disk dev (Function.update (s.disk dev) b data) }

end Io

/-- An assignment to the fields of a buffer. -/
def onBuf (i : Fin NBUF) (f : Buf → Buf) : IoM Unit := modify fun s => s.modify i f

/-! ## Sleep locks -/

/-- `acquiresleep`. -/
def acquiresleep (p : Nat) (i : Fin NBUF) : IoM Unit := do
  if ((← get).bc.buf i).lock ≠ none then throw .wait
  else onBuf i fun b => { b with lock := some p }

/-- `releasesleep`. -/
def releasesleep (i : Fin NBUF) : IoM Unit := onBuf i fun b => { b with lock := none }

/-- `holdingsleep`. -/
def holdingsleep (p : Nat) (i : Fin NBUF) (s : Io) : Bool := (s.bc.buf i).lock = some p

/-! ## The disk -/

/-- `iderw`, with the check of `idestart`. -/
def iderw (p : Nat) (i : Fin NBUF) : IoM Unit := do
  let s ← get
  let b := s.bc.buf i
  if holdingsleep p i s = false then throw .iderwLock
  else if b.valid = true ∧ b.dirty = false then throw .iderwIdle
  else if FSSIZE ≤ b.blockno then throw .blockno
  else if b.dirty = true then
    set ((s.write b.dev b.blockno b.data).modify i fun b => { b with valid := true, dirty := false })
  else
    set (s.modify i fun b => { b with valid := true, data := s.disk b.dev b.blockno })

/-! ## The cache -/

/-- `bget` up to the release of `bcache.lock`: the buffer that holds the block, or else the one that was used least recently among
those that nobody refers to and that are not dirty. -/
def bgetFind (dev blockno : Nat) : IoM (Fin NBUF) := do
  let bc := (← get).bc
  match Links.scan bc.links.next (fun i => (bc.buf i).dev = dev ∧ (bc.buf i).blockno = blockno) (NBUF + 1) (bc.links.next none) with
  | some i =>
    onBuf i fun b => { b with refcnt := b.refcnt + 1 }
    pure i
  | none =>
    match Links.scan bc.links.prev (fun i => (bc.buf i).refcnt = 0 ∧ (bc.buf i).dirty = false) (NBUF + 1) (bc.links.prev none) with
    | some i =>
      onBuf i fun b => { b with dev := dev, blockno := blockno, valid := false, dirty := false, refcnt := 1 }
      pure i
    | none => throw .bget

/-- `bread` once `bget` has found the buffer: the lock is taken, and the block is read if that has not been done. -/
def breadLock (p : Nat) (i : Fin NBUF) : IoM Unit := do
  acquiresleep p i
  if ((← get).bc.buf i).valid = false then iderw p i
  else pure ()

/-- `bread`. -/
def bread (p dev blockno : Nat) : IoM (Fin NBUF) := do
  let i ← bgetFind dev blockno
  breadLock p i
  pure i

/-- `bwrite`. -/
def bwrite (p : Nat) (i : Fin NBUF) : IoM Unit := do
  if holdingsleep p i (← get) = false then throw .bwrite
  else do
    onBuf i fun b => { b with dirty := true }
    iderw p i

/-- `brelse` under `bcache.lock`: the last reference gone, the buffer goes to the front of the ring. -/
def bput (i : Fin NBUF) : IoM Unit := do
  onBuf i fun b => { b with refcnt := b.refcnt - 1 }
  if ((← get).bc.buf i).refcnt = 0 then
    modify fun s => { s with bc := { s.bc with links := (s.bc.links.unlink i).pushFront i } }
  else pure ()

/-- `brelse`. -/
def brelse (p : Nat) (i : Fin NBUF) : IoM Unit := do
  if holdingsleep p i (← get) = false then throw .brelse
  else do
    releasesleep i
    bput i

end OsLab
