import OsLab.MsgQueue

/-!
# Messages longer than a page

`sys_msgsnd` does not compare `msgsz` with the room in a node: its `memmove` goes on past the page of the node into the page behind it
in physical memory. `msgSys` ends the run there. `spillSys` goes on when that page holds a queue or a node, all that is past the node
fits in it, and the lock and the pointers that come out of it are ones the kernel can go on with; otherwise it ends the run as well.

A word of the page behind is what the message puts there, byte by byte, and what it was in the bytes that the message does not reach.
-/

namespace OsLab

/-- The addresses of the pages, and the page at an address. -/
structure PageMap (A : Type*) where
  addr : A → Nat
  pageAt : Nat → Option A
  pageAt_addr : ∀ a, pageAt (addr a) = some a
  addr_of_pageAt : ∀ {w a}, pageAt w = some a → addr a = w
  addr_pos : ∀ a, 0 < addr a

namespace PageMap

variable {A : Type*} (M : PageMap A)

/-- A pointer to a page as a word. -/
def word : Option A → Nat
  | none => 0
  | some a => M.addr a

/-- The pointer that a word is, if it is null or to a page. -/
def pointer (w : Nat) : Except Fault (Option A) :=
  if w = 0 then .ok none
  else
    match M.pageAt w with
    | none => .error .dangling
    | some a => .ok (some a)

/-- The page behind. -/
def behind (a : A) : Option A := M.pageAt (M.addr a + PGSIZE)

end PageMap

/-- The word at an offset of a page whose first `k` bytes are overwritten by `b`. -/
def spillWord (b : Nat → UInt8) (k offset old : Nat) : Nat :=
  ((List.range 4).map fun i => (if offset + i < k then (b (offset + i)).toNat else old / 256 ^ i % 256) * 256 ^ i).sum

section Spill

variable {A : Type*} (M : PageMap A) (b : Nat → UInt8) (k : Nat)

/-- `struct msg_node` after that: `next`, `msgtyp`, `length` and `data` are at 0, 4, 8 and 12. -/
def spillNode (n : MsgNode A) : Except Fault (MsgNode A) := do
  let next ← M.pointer (spillWord b k 0 (M.word n.next))
  return { next := next, msgtyp := int32 (spillWord b k 4 (uintOf n.msgtyp)), length := int32 (spillWord b k 8 (uintOf n.length)),
           data := fun j => if 12 + j < k then b (12 + j) else n.data j, inst := n.inst }

/-- `struct msg_queue` after that: `next`, `lock`, `id`, `key`, `head` and `tail` are at 0, 4, 56, 60, 64 and 68. The first word of
the lock is `locked`, and nobody holds the lock: one that is set is never released. -/
def spillQueue (q : MsgQueue A) : Except Fault (MsgQueue A) := do
  let next ← M.pointer (spillWord b k 0 (M.word q.next))
  if spillWord b k 4 0 ≠ 0 then throw .endless
  let head ← M.pointer (spillWord b k 64 (M.word q.head))
  let tail ← M.pointer (spillWord b k 68 (M.word q.tail))
  return { next := next, id := int32 (spillWord b k 56 (uintOf q.id)), key := int32 (spillWord b k 60 (uintOf q.key)),
           head := head, tail := tail, inst := q.inst }

/-- A page after that. -/
def spillPage : Page A → Except Fault (Page A)
  | .node n => (spillNode M b k n).map .node
  | .queue q => (spillQueue M b k q).map .queue
  | .free => .error .overrun
  | .other => .error .overrun

end Spill

/-- No process has a message to send that does not fit a page. -/
def MsgSt.Sized {P A : Type*} (s : MsgSt P A) : Prop := ∀ p d, (s.pc p).sendCall = some d → d.msgsz ≤ NODEROOM

section System

variable {P A : Type*} [DecidableEq P] [DecidableEq A] (M : PageMap A)

/-- `sys_msgsnd` fills the node on the page `a` with a message that does not fit in it. -/
def msgsndSpill (s : MsgSt P A) (p : P) (q : QueueRef A) (c : SendCall) (a : A) (junk : Nat → UInt8) : MsgSt P A :=
  let k := (c.msgsz - NODEROOM).toNat
  match M.behind a with
  | none => s.fail .overrun
  | some x =>
    if PGSIZE < k then s.fail .overrun
    else
      match spillPage M (fun j => c.text (NODEROOM + j)) k (s.page x) with
      | .error f => s.fail f
      | .ok c' =>
        let s' := { s with page := Function.update (Function.update s.page x c') a (.node (c.node q.inst junk)) }
        s'.setPc p (.appending q a c)

variable [Fintype A]

/-- One step. -/
def spillStep (s : MsgSt P A) : MsgAct P A → Option (MsgSt P A)
  | .sndAlloc p (some a) junk =>
    match s.fault, s.pc p, s.page a with
    | none, .sending q c, .free =>
      if NODEROOM < c.msgsz then some (msgsndSpill M s p q c a junk) else msgStep s (.sndAlloc p (some a) junk)
    | _, _, _ => msgStep s (.sndAlloc p (some a) junk)
  | act => msgStep s act

/-- The message calls of any number of processes, in any order of their steps, with messages of any size. -/
def spillSys : Sys (MsgSt P A) (MsgAct P A) where
  init := MsgSt.Boot
  step := spillStep M

/-- Nothing is spilled while no message is too long. -/
theorem spillStep_of_sized {s : MsgSt P A} (hs : s.Sized) (act : MsgAct P A) : spillStep M s act = msgStep s act := by
  unfold spillStep
  split
  · split
    · rename_i hp _
      rw [if_neg]
      exact not_lt.mpr (hs _ _ (by rw [hp]; rfl))
    · rfl
  · rfl

end System

/-- Four pages, one behind the other. -/
def samplePages : PageMap (Fin 4) where
  addr a := 0x80400000 + PGSIZE * a
  pageAt w := (List.finRange 4).find? fun a => 0x80400000 + PGSIZE * a.val == w
  pageAt_addr := by decide
  addr_of_pageAt h := by simpa using List.find?_some h
  addr_pos a := by omega

end OsLab
