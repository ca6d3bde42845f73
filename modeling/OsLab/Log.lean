import OsLab.Bio
import OsLab.Lib.Bytes
import OsLab.Lib.Redo

/-!
# The log

`log.c` over the buffer cache, with the power going off at any moment. The log lies in `size` blocks of the disk from `start` on: a
header with the numbers of the blocks that are to be written, and then their new contents. An operation of the file system
(`begin_op`, …, `end_op`) changes blocks in the cache only, and notes them in the header in memory (`log_write`); the last operation
to end writes them to the log, writes the header, writes the blocks to their places and clears the header (`commit`).

`Fs` is the machine: the disk and the cache, the log in memory, the processes that use buffers, and how far the commit or the recovery
has come (`LogPhase`). Steps of different processes come in any order. One turn of the loops of `write_log` and `install_trans` is one
step; it writes one block of the disk, and a crash can come before it and after it. A panic stops the machine: from such a state the
step cannot be taken, and what is left is the crash.
-/

namespace OsLab

/-- Where the log lies on the disk. -/
structure LogArea where
  start : Nat
  size : Nat
  pos : 0 < size
  fits : start + size ≤ FSSIZE

/-- The log of a disk that `mkfs` has made. -/
def mkfsLog : LogArea := ⟨2, LOGSIZE, by decide, by decide⟩

/-- A block of the disk that is not part of the log. -/
def LogArea.Home (A : LogArea) (b : Nat) : Prop := b < A.start ∨ A.start + A.size ≤ b

instance (A : LogArea) (b : Nat) : Decidable (A.Home b) := inferInstanceAs (Decidable (_ ∨ _))

/-- `log`. The header is the list of its `n` block numbers. -/
structure Log where
  outstanding : Nat
  committing : Bool
  lh : List Nat

/-- The log before `initlog`. -/
def Log.zero : Log := ⟨0, false, []⟩

/-- The disk with its cache, and the log. -/
structure Store where
  io : Io
  log : Log

/-- A function of `log.c`. -/
abbrev StoreM (α : Type) := Cmd FsStop Store α

/-- A function of `bio.c`, called from one of `log.c`. -/
def onIo {α : Type} (x : IoM α) : StoreM α := Cmd.zoom Store.io (fun s io => { s with io := io }) x

/-! ## The header -/

/-- The block numbers in a header block. -/
def headerOf (b : Block) : List Nat := (List.range (int32 (getLE b 0 4)).toNat).map fun i => getLE b (4 * (i + 1)) 4

/-- The loop of `write_head`. -/
def putBlocks (b : Block) (i : Nat) : List Nat → Block
  | [] => b
  | n :: l => putBlocks (putLE b (4 * (i + 1)) 4 n) (i + 1) l

/-- A header block with other block numbers. -/
def putHeader (l : List Nat) (b : Block) : Block := putBlocks (putLE b 0 4 l.length) 0 l

section

variable (A : LogArea) (p : Nat)

/-- `read_head`. -/
def readHead : StoreM Unit := do
  let i ← onIo (bread p ROOTDEV A.start)
  modify fun s => { s with log := { s.log with lh := headerOf (s.io.bc.buf i).data } }
  onIo (brelse p i)

/-- `write_head`. -/
def writeHead : StoreM Unit := do
  let lh := (← get).log.lh
  let i ← onIo (bread p ROOTDEV A.start)
  onIo (do
    onBuf i fun B => { B with data := putHeader lh B.data }
    bwrite p i)
  onIo (brelse p i)

/-! ## Copying blocks -/

/-- One turn of `write_log`: a block is copied from the cache to the log. -/
def writeLogOne (tail : Nat) : StoreM Unit := do
  let lh := (← get).log.lh
  let to' ← onIo (bread p ROOTDEV (A.start + tail + 1))
  let from' ← onIo (bread p ROOTDEV (lh.getD tail 0))
  let data := ((← get).io.bc.buf from').data
  onIo (do
    onBuf to' fun B => { B with data := data }
    bwrite p to')
  onIo (brelse p from')
  onIo (brelse p to')

/-- One turn of `install_trans`: a block is copied from the log to its place. -/
def installOne (tail : Nat) : StoreM Unit := do
  let lh := (← get).log.lh
  let lbuf ← onIo (bread p ROOTDEV (A.start + tail + 1))
  let dbuf ← onIo (bread p ROOTDEV (lh.getD tail 0))
  let data := ((← get).io.bc.buf lbuf).data
  onIo (do
    onBuf dbuf fun B => { B with data := data }
    bwrite p dbuf)
  onIo (brelse p lbuf)
  onIo (brelse p dbuf)

/-! ## Operations -/

/-- The loop of `log_write`: the number takes the place of the same number, or comes last. -/
def absorb (b : Nat) : List Nat → List Nat
  | [] => [b]
  | c :: l => if c = b then b :: l else c :: absorb b l

/-- `log_write`. -/
def logWrite (i : Fin NBUF) : StoreM Unit := do
  let s ← get
  if LOGSIZE ≤ s.log.lh.length ∨ A.size ≤ s.log.lh.length + 1 then throw .tooBig
  else if s.log.outstanding < 1 then throw .outside
  else do
    set { s with log := { s.log with lh := absorb (s.io.bc.buf i).blockno s.log.lh } }
    onIo (onBuf i fun B => { B with dirty := true })

/-- The condition on which `begin_op` sleeps. -/
def Log.full (l : Log) : Bool := l.committing || decide (LOGSIZE < l.lh.length + (l.outstanding + 1) * MAXOPBLOCKS)

end

/-! ## The machine -/

/-- How far the commit, or the recovery after a start, has come. -/
inductive LogPhase where
  /-- No commit is running. -/
  | up
  /-- In `write_log`. -/
  | writeLog (tail : Nat)
  /-- At the first `write_head` of `commit`. -/
  | writeHead
  /-- In the `install_trans` of `commit`. -/
  | install (tail : Nat)
  /-- At the second `write_head`, with `log.lh.n` zero. -/
  | clear
  /-- Back in `end_op`. -/
  | committed
  /-- At the `read_head` of `recover_from_log`. -/
  | readHead
  /-- In its `install_trans`. -/
  | recover (tail : Nat)
  /-- At its `write_head`, with `log.lh.n` zero. -/
  | erase
  deriving DecidableEq, Repr

/-- `initlog` has not come back: no process uses the file system yet. -/
def LogPhase.starting : LogPhase → Bool
  | .readHead | .recover _ | .erase => true
  | _ => false

/-- The machine. -/
structure Fs extends Store where
  phase : LogPhase
  /-- The process that commits or recovers. -/
  pid : Nat
  /-- The processes that are in `bget`, before the lock of the buffer. -/
  waiting : List (Nat × Fin NBUF)
  /-- The processes that are in `brelse`, after the lock of the buffer. -/
  leaving : List (Nat × Fin NBUF)
  /-- The processes between `begin_op` and `end_op`. -/
  inOp : List Nat
  /-- The processes that sleep in `begin_op`. -/
  asleep : Nat → Bool

/-- What a process, or the power, does next. -/
inductive FsAct where
  | beginOp (p : Nat)
  | bget (p b : Nat)
  | breadLock (p : Nat) (i : Fin NBUF)
  | logWrite (p : Nat) (i : Fin NBUF) (data : Block)
  | releasesleep (p : Nat) (i : Fin NBUF)
  | bput (p : Nat) (i : Fin NBUF)
  | endOp (p : Nat)
  | commit
  | crash
  | recover

namespace Fs

/-- The machine after a function of `log.c`, when it comes back. -/
def call {α : Type} (s : Fs) (x : StoreM α) (k : α → Fs → Fs) : Option Fs :=
  match x s.toStore with
  | .ok (a, t) => some (k a { s with toStore := t })
  | .error _ => none

section

variable (A : LogArea)

/-- The next step of `commit`, and of `end_op` after it. -/
def commitStep (s : Fs) : Option Fs :=
  match s.phase with
  | .writeLog t =>
    if t < s.log.lh.length then s.call (writeLogOne A s.pid t) fun _ s => { s with phase := .writeLog (t + 1) }
    else some { s with phase := .writeHead }
  | .writeHead => s.call (writeHead A s.pid) fun _ s => { s with phase := .install 0 }
  | .install t =>
    if t < s.log.lh.length then s.call (installOne A s.pid t) fun _ s => { s with phase := .install (t + 1) }
    else some { s with log := { s.log with lh := [] }, phase := .clear }
  | .clear => s.call (writeHead A s.pid) fun _ s => { s with phase := .committed }
  | .committed => some { s with log := { s.log with committing := false }, asleep := fun _ => false, phase := .up }
  | _ => none

/-- The next step of `recover_from_log`. -/
def recoverStep (s : Fs) : Option Fs :=
  match s.phase with
  | .readHead => s.call (readHead A s.pid) fun _ s => { s with phase := .recover 0 }
  | .recover t =>
    if t < s.log.lh.length then s.call (installOne A s.pid t) fun _ s => { s with phase := .recover (t + 1) }
    else some { s with log := { s.log with lh := [] }, phase := .erase }
  | .erase => s.call (writeHead A s.pid) fun _ s => { s with phase := .up }
  | _ => none

/-- The machine when it is started on a disk. -/
def boot (disk : Nat → Nat → Block) : Fs where
  io := ⟨disk, binit⟩
  log := Log.zero
  phase := .readHead
  pid := 1
  waiting := []
  leaving := []
  inOp := []
  asleep := fun _ => false

/-- `end_op` up to the first release of `log.lock`. A commit of an empty log does nothing. -/
def endOp (s : Fs) (p : Nat) : Option Fs :=
  if s.log.committing then none
  else if s.log.outstanding = 1 then
    some { s with
      log := { s.log with outstanding := 0, committing := true }
      inOp := s.inOp.erase p
      pid := p
      phase := if s.log.lh = [] then .committed else .writeLog 0 }
  else
    some { s with
      log := { s.log with outstanding := s.log.outstanding - 1 }
      inOp := s.inOp.erase p
      asleep := fun _ => false }

/-- `begin_op`, one turn of its loop. -/
def beginOp (s : Fs) (p : Nat) : Option Fs :=
  if s.asleep p then none
  else if s.log.full then some { s with asleep := Function.update s.asleep p true }
  else some { s with log := { s.log with outstanding := s.log.outstanding + 1 }, inOp := p :: s.inOp }

/-- One step of the machine. -/
def step (s : Fs) : FsAct → Option Fs
  | .crash => some (boot s.io.disk)
  | .recover => s.recoverStep A
  | a =>
    if s.phase.starting then none
    else
      match a with
      | .beginOp p => s.beginOp p
      | .bget p b => s.call (onIo (bgetFind ROOTDEV b)) fun i s => { s with waiting := (p, i) :: s.waiting }
      | .breadLock p i =>
        if (p, i) ∈ s.waiting then
          s.call (onIo (OsLab.breadLock p i)) fun _ s => { s with waiting := s.waiting.erase (p, i) }
        else none
      | .logWrite p i data =>
        if holdingsleep p i s.io then
          s.call (do onIo (onBuf i fun B => { B with data := data }); OsLab.logWrite A i) fun _ s => s
        else none
      | .releasesleep p i =>
        if holdingsleep p i s.io then
          s.call (onIo (OsLab.releasesleep i)) fun _ s => { s with leaving := (p, i) :: s.leaving }
        else none
      | .bput p i =>
        if (p, i) ∈ s.leaving then s.call (onIo (OsLab.bput i)) fun _ s => { s with leaving := s.leaving.erase (p, i) }
        else none
      | .endOp p => s.endOp p
      | _ => s.commitStep A

/-- What the functions of `fs.c` and `sysfile.c` keep to: they use the blocks of the log in no other way than through `log.c`, they
change blocks in an operation, and they end the operations that they have begun. -/
def Kept (s : Fs) : FsAct → Prop
  | .bget _ b => A.Home b
  | .logWrite p _ _ => p ∈ s.inOp
  | .endOp p => p ∈ s.inOp
  | _ => True

instance (s : Fs) : (a : FsAct) → Decidable (Kept A s a)
  | .bget _ b => inferInstanceAs (Decidable (A.Home b))
  | .logWrite p _ _ => inferInstanceAs (Decidable (p ∈ s.inOp))
  | .endOp p => inferInstanceAs (Decidable (p ∈ s.inOp))
  | .beginOp _ => .isTrue trivial
  | .breadLock _ _ => .isTrue trivial
  | .releasesleep _ _ => .isTrue trivial
  | .bput _ _ => .isTrue trivial
  | .commit => .isTrue trivial
  | .crash => .isTrue trivial
  | .recover => .isTrue trivial

/-- The machine, from a disk on which the log is empty. -/
def sys : Sys Fs FsAct where
  init s := ∃ disk, headerOf (disk ROOTDEV A.start) = [] ∧ s = boot disk
  step := step A

/-! ## What the log is for -/

/-- The writes that the log on a disk asks for. -/
def redo (d : Nat → Block) : List (Nat × Block) := (headerOf (d A.start)).mapIdx fun i b => (b, d (A.start + i + 1))

/-- The blocks of a disk once its log has been written to them. -/
def recovered (d : Nat → Block) : Nat → Block := install d (redo A d)

end

end Fs

end OsLab
