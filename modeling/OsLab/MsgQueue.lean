import OsLab.Machine
import OsLab.Lib.Chain
import OsLab.Lib.Run

/-!
# Message queues

`queue_list_head`, the queues and their messages, and the system calls over them (`sysproc.c`). A queue and a message node
each fill a page from `kalloc`, and they are linked by pointers to these pages.

`msgSys` interleaves the calls. What a call does between `acquire` and `release` of one lock is one step, and so is every
`kalloc` and `kfree` outside the locks: a sender looks the queue up under `queue_list_lock`, gives the lock up, fills a node,
and only then takes `queue->lock`; a receiver looks the queue up, and then scans it, or sleeps on it, under `queue->lock`;
`sys_msgctl` unlinks the queue under the one lock, frees its nodes and wakes its sleepers under the other, and then frees the
page of the queue. A pointer to a queue that a process holds from one step to the next is a `QueueRef`, with the instance of the
queue that it was taken for, so that a step that uses the pointer after that queue is gone can be told apart.

Where the code would go on with memory that is not what it takes it for, the state records the fault and the run ends there.
-/

namespace OsLab

open Function (update)

/-- `IPC_CREAT`. -/
def IPC_CREAT : Nat := 0o1000

/-- `IPC_NOWAIT`. -/
def IPC_NOWAIT : Nat := 0o4000

/-- `IPC_RMID`. -/
def IPC_RMID : Int := 0

/-- `flags & f` is not zero. -/
def hasFlag (flags : Int) (f : Nat) : Bool := (uintOf flags &&& f) != 0

/-- `sizeof(long)`. -/
def LONGSIZE : Nat := 4

/-- The bytes of a page behind the `next`, `msgtyp` and `length` of a node: the 4000 of `data` and the padding. -/
def NODEROOM : Nat := PGSIZE - 12

/-- A message as its sender knows it: the type, and the payload. -/
structure Msg where
  typ : Int
  text : List UInt8
  deriving DecidableEq, Repr

/-- `struct msg_node`, with the bytes of its page from `data` on, and the instance of the queue it was allocated for. -/
structure MsgNode (A : Type*) where
  next : Option A
  msgtyp : Int
  length : Int
  data : Nat → UInt8
  inst : Nat

/-- `struct msg_queue`, without its lock, and its instance: a number of its own for every queue created. -/
structure MsgQueue (A : Type*) where
  next : Option A
  id : Int
  key : Int
  head : Option A
  tail : Option A
  inst : Nat

/-- What a page is in use for. -/
inductive Page (A : Type*) where
  | free
  /-- By other parts of the kernel. -/
  | other
  | node (n : MsgNode A)
  | queue (q : MsgQueue A)

/-- The node that a page holds. -/
def Page.node? {A : Type*} : Page A → Option (MsgNode A)
  | .node n => some n
  | _ => none

/-- The queue that a page holds. -/
def Page.queue? {A : Type*} : Page A → Option (MsgQueue A)
  | .queue q => some q
  | _ => none

/-- A pointer to a queue, and the instance it was taken for. -/
structure QueueRef (A : Type*) where
  page : A
  inst : Nat

/-- What a call of `sys_msgsnd` was given: the size, and the type and the bytes behind it in the user's memory. -/
structure SendCall where
  msgsz : Int
  typ : Int
  text : Nat → UInt8

/-- The message that the caller means to send. -/
def SendCall.msg (c : SendCall) : Msg := ⟨c.typ, (List.range c.msgsz.toNat).map c.text⟩

/-- The bytes of the array `data` of a node. -/
def MSGDATA : Nat := 4000

/-- The indices of `data` that the `memmove` of `sys_msgsnd` writes: it is called for a size above zero, and takes it as a
`uint`. -/
def SendCall.written (c : SendCall) : List Nat := if 0 < c.msgsz then List.range (uintOf c.msgsz) else []

/-- What a call of `sys_msgrcv` was given, and the size of the process. -/
structure RecvCall where
  msgp : Arg
  msgsz : Int
  msgtyp : Int
  msgflg : Int
  sz : Nat

/-- Where a process is in the code of the message calls. -/
inductive MsgPc (A : Type*) where
  /-- In none of them. -/
  | user
  /-- In `sys_msgget`, which has found the queue and released the list: about to read `queue->id`. -/
  | gotten (q : QueueRef A)
  /-- In `sys_msgsnd`, which has found the queue: about to call `kalloc`. -/
  | sending (q : QueueRef A) (c : SendCall)
  /-- In `sys_msgsnd`, with the node filled: about to take `queue->lock`. -/
  | appending (q : QueueRef A) (node : A) (c : SendCall)
  /-- In `sys_msgrcv`: about to take `queue->lock`, for the first time or after a sleep. -/
  | receiving (q : QueueRef A) (c : RecvCall)
  /-- In `sys_msgrcv`, asleep on the queue. -/
  | asleep (q : QueueRef A) (c : RecvCall)
  /-- In `sys_msgrcv`, with the node unlinked and `queue->lock` released: about to copy it out. -/
  | delivering (node : A) (c : RecvCall)
  /-- In `sys_msgctl`, with the queue off the list: about to take `queue->lock`. -/
  | removing (q : QueueRef A)
  /-- In `sys_msgctl`, with the nodes freed and `queue->lock` released: about to free the queue. -/
  | freeing (q : QueueRef A)

/-- The pointer to a queue that the process still has a use for. -/
def MsgPc.ref {A : Type*} : MsgPc A → Option (QueueRef A)
  | .user => none
  | .gotten q => some q
  | .sending q _ => some q
  | .appending q _ _ => some q
  | .receiving q _ => some q
  | .asleep q _ => some q
  | .delivering _ _ => none
  | .removing q => some q
  | .freeing q => some q

/-- The call of `sys_msgsnd` that has no node yet. -/
def MsgPc.sendCall {A : Type*} : MsgPc A → Option SendCall
  | .sending _ c => some c
  | _ => none

/-- The call of `sys_msgrcv` that the process is in. -/
def MsgPc.recvCall {A : Type*} : MsgPc A → Option RecvCall
  | .receiving _ c => some c
  | .asleep _ c => some c
  | .delivering _ c => some c
  | _ => none

/-- The node that the process has and no queue does: not yet linked, or unlinked. -/
def MsgPc.hand {A : Type*} : MsgPc A → Option A
  | .appending _ f _ => some f
  | .delivering f _ => some f
  | _ => none

/-- What goes wrong when a call follows a pointer that is not what it takes it for, or writes past a page. -/
inductive Fault where
  /-- It uses a queue that has been freed. -/
  | freedQueue
  /-- It follows the pointers of a list to a page that holds no element of it. -/
  | dangling
  /-- It follows the pointers of a list round a cycle. -/
  | endless
  /-- It writes through a null `tail`. -/
  | nullTail
  /-- Its `memmove` goes on past the page of the node. -/
  | overrun
  deriving DecidableEq, Repr

/-- What has happened, for the record. -/
inductive MsgEvent (P : Type*) where
  /-- `sys_msgsnd` has linked the message at the end of this queue. -/
  | sent (p : P) (inst : Nat) (m : Msg)
  /-- `sys_msgrcv` has unlinked the message from this queue. -/
  | took (p : P) (inst : Nat) (c : RecvCall) (m : Msg)
  /-- `sys_msgrcv` has copied this type and these bytes to the user's address, and returned. -/
  | received (p : P) (addr : Nat) (typ : Int) (text : List UInt8) (r : Int)
  /-- Any other return of a call. -/
  | ret (p : P) (r : Int)

/-- The kernel's state of the message queues and the processes. -/
structure MsgSt (P A : Type*) where
  page : A → Page A
  /-- `queue_list_head`. -/
  listHead : Option A
  /-- `next_queue_id`. -/
  nextId : Int
  pc : P → MsgPc A
  killed : P → Bool
  /-- The queues created so far. -/
  insts : Nat
  fault : Option Fault
  /-- Oldest first. -/
  log : List (MsgEvent P)

section Memory

variable {A : Type*}

/-- The node on the page at this address. -/
def nodeAt (h : A → Page A) (a : A) : Option (MsgNode A) := (h a).node?

/-- The queue on the page at this address. -/
def queueAt (h : A → Page A) (a : A) : Option (MsgQueue A) := (h a).queue?

/-- `node->next`. -/
def nextNode (h : A → Page A) (a : A) : Option (Option A) := (nodeAt h a).map (·.next)

/-- `queue->next`. -/
def nextQueue (h : A → Page A) (a : A) : Option (Option A) := (queueAt h a).map (·.next)

variable [DecidableEq A]

/-- `p->next = m`, for a node or a queue. -/
def setNext (h : A → Page A) (p : A) (m : Option A) : A → Page A :=
  match h p with
  | .node n => update h p (.node { n with next := m })
  | .queue q => update h p (.queue { q with next := m })
  | _ => h

/-- The search of the nodes of a queue for the first that a receiver of this type wants, with the node before it. -/
def seekNode [Fintype A] (h : A → Page A) (msgtyp : Int) (head : Option A) : Seek A :=
  seek (nextNode h) (fun a => msgtyp == 0 || (nodeAt h a).any (·.msgtyp == msgtyp)) (Fintype.card A + 1) none head

/-- The search of the list of queues, with the queue before the one found. -/
def seekQueue [Fintype A] (h : A → Page A) (test : MsgQueue A → Bool) (head : Option A) : Seek A :=
  seek (nextQueue h) (fun a => (queueAt h a).any test) (Fintype.card A + 1) none head

/-- The append of `sys_msgsnd`, under `queue->lock`. -/
def msgsndAppend (h : A → Page A) (a : A) (q : MsgQueue A) (node : A) : Except Fault (A → Page A) :=
  match q.head with
  | none => .ok (update h a (.queue { q with head := some node, tail := some node }))
  | some _ =>
    match q.tail with
    | none => .error .nullTail
    | some t =>
      match nodeAt h t with
      | none => .error .dangling
      | some _ => .ok (update (setNext h t (some node)) a (.queue { q with tail := some node }))

/-- The unlinking of `currentnode` in `sys_msgrcv`, under `queue->lock`; `next` is what it points to. -/
def msgrcvUnlink (h : A → Page A) (a : A) (q : MsgQueue A) (previousnode : Option A) (currentnode : A)
    (next : Option A) : A → Page A :=
  let tail := if q.tail = some currentnode then previousnode else q.tail
  match previousnode with
  | some p => update (setNext h p next) a (.queue { q with tail := tail })
  | none => update h a (.queue { q with head := next, tail := tail })

/-- The loop of `sys_msgctl` that frees the nodes of a queue: it reads `next` before it frees. -/
def freeNodes (h : A → Page A) : Nat → Option A → Except Fault (A → Page A)
  | 0, _ => .error .endless
  | _ + 1, none => .ok h
  | n + 1, some a =>
    match nodeAt h a with
    | none => .error .dangling
    | some m => freeNodes (update h a .free) n m.next

end Memory

/-- `copysz`: the comparison in `sys_msgrcv` is unsigned. -/
def copysz (length msgsz : Int) : Int := if uintOf length < uintOf msgsz then length else msgsz

/-- What `sys_msgrcv` copies out of a node: `beyond` is what memory holds behind the page. -/
def MsgNode.copied {A : Type*} (n : MsgNode A) (beyond : Nat → UInt8) (size : Int) : List UInt8 :=
  (List.range size.toNat).map fun k => if k < NODEROOM then n.data k else beyond k

/-- The message in a node. -/
def MsgNode.msg {A : Type*} (n : MsgNode A) : Msg := ⟨n.msgtyp, (List.range n.length.toNat).map n.data⟩

/-- The node that `sys_msgsnd` fills, on a page that held `junk`. -/
def SendCall.node {A : Type*} (c : SendCall) (inst : Nat) (junk : Nat → UInt8) : MsgNode A :=
  { next := none, msgtyp := c.typ, length := c.msgsz,
    data := fun k => if (k : Int) < c.msgsz then c.text k else junk k, inst := inst }

/-- The steps of the processes, with what the environment answers: the page that `kalloc` returns and what it held, the
user's memory and size, and the memory behind a node. -/
inductive MsgAct (P A : Type*) where
  | get (p : P) (key msgflg : Arg) (page : Option A)
  | getId (p : P)
  | snd (p : P) (msqid msgp msgsz msgflg : Arg) (sz : Nat) (typ : Int) (text : Nat → UInt8)
  | sndAlloc (p : P) (page : Option A) (junk : Nat → UInt8)
  | sndAppend (p : P)
  | rcv (p : P) (msqid msgp msgsz msgtyp msgflg : Arg) (sz : Nat)
  | rcvScan (p : P)
  | deliver (p : P) (beyond : Nat → UInt8)
  | ctl (p : P) (msqid cmd : Arg)
  | ctlDrain (p : P)
  | ctlFree (p : P)
  | kill (p : P)
  /-- Another part of the kernel takes a page from `kalloc`. -/
  | take (a : A)
  /-- Another part of the kernel gives a page to `kfree`. -/
  | give (a : A)

/-- What a `sys_msgsnd` is given, when its arguments can be fetched. -/
def MsgAct.sendCall {P A : Type*} : MsgAct P A → Option SendCall
  | .snd _ (some _) _ (some msgsz) (some _) _ typ text => some ⟨msgsz, typ, text⟩
  | _ => none

/-- What a `sys_msgrcv` is given, when its arguments can be fetched. -/
def MsgAct.recvCall {P A : Type*} : MsgAct P A → Option RecvCall
  | .rcv _ (some _) msgp (some msgsz) (some msgtyp) (some msgflg) sz => some ⟨msgp, msgsz, msgtyp, msgflg, sz⟩
  | _ => none

section System

variable {P A : Type*} [DecidableEq P] [DecidableEq A] [Fintype A]

namespace MsgSt

/-- A process put at a place of the code. -/
def setPc (s : MsgSt P A) (p : P) (c : MsgPc A) : MsgSt P A := { s with pc := update s.pc p c }

/-- The call returns. -/
def ret (s : MsgSt P A) (p : P) (r : Int) : MsgSt P A := { s.setPc p .user with log := s.log ++ [.ret p r] }

/-- The run ends here. -/
def fail (s : MsgSt P A) (f : Fault) : MsgSt P A := { s with fault := some f }

/-- The queue that a pointer was taken for, if it is still there. -/
def deref (s : MsgSt P A) (q : QueueRef A) : Option (MsgQueue A) :=
  (queueAt s.page q.page).filter (·.inst = q.inst)

/-- A pointer to the queue on this page. -/
def refTo (s : MsgSt P A) (a : A) : QueueRef A := ⟨a, ((queueAt s.page a).map (·.inst)).getD 0⟩

/-- `wakeup(queue)`: the channel is the address. -/
def wakeup (s : MsgSt P A) (a : A) : MsgSt P A :=
  { s with pc := fun p =>
      match s.pc p with
      | .asleep q c => if q.page = a then .receiving q c else .asleep q c
      | c => c }

/-- The lookup that `sys_msgsnd`, `sys_msgrcv` and `sys_msgctl` begin with: the call fails if there is no such queue. -/
def lookup (s : MsgSt P A) (p : P) (msqid : Int) (found : Option A → A → MsgSt P A) : MsgSt P A :=
  match seekQueue s.page (·.id == msqid) s.listHead with
  | .found prev a => found prev a
  | .absent => s.ret p (-1)
  | .dangling => s.fail .dangling
  | .endless => s.fail .endless

end MsgSt

/-- `sys_msgget`, up to its release of the list; the page is what `kalloc` returns, if it is called. -/
def sysMsgget (s : MsgSt P A) (p : P) (key msgflg : Arg) (page : Option A) : Option (MsgSt P A) :=
  match key, msgflg with
  | some key, some msgflg =>
    match seekQueue s.page (·.key == key) s.listHead with
    | .found _ a => some (s.setPc p (.gotten (s.refTo a)))
    | .absent =>
      if !hasFlag msgflg IPC_CREAT then some (s.ret p (-1))
      else
        match page with
        | none => some (s.ret p (-1))
        | some a =>
          match s.page a with
          | .free =>
            let q : MsgQueue A :=
              { next := s.listHead, id := s.nextId, key := key, head := none, tail := none, inst := s.insts }
            let s' := { s with page := update s.page a (.queue q), listHead := some a,
                               nextId := int32 (s.nextId + 1), insts := s.insts + 1 }
            some (s'.ret p s.nextId)
          | _ => none
    | .dangling => some (s.fail .dangling)
    | .endless => some (s.fail .endless)
  | _, _ => some (s.ret p (-1))

/-- The end of a `sys_msgget` that has found the queue: it reads `queue->id` after the release of the list. -/
def msggetId (s : MsgSt P A) (p : P) (q : QueueRef A) : MsgSt P A :=
  match s.deref q with
  | none => s.fail .freedQueue
  | some Q => s.ret p Q.id

/-- `sys_msgsnd`, up to its release of the list. -/
def sysMsgsnd (s : MsgSt P A) (p : P) (msqid msgp msgsz msgflg : Arg) (sz : Nat) (typ : Int) (text : Nat → UInt8) :
    MsgSt P A :=
  match msqid, msgsz, msgflg with
  | some msqid, some msgsz, some _ =>
    match argptr sz msgp (int32 (msgsz + LONGSIZE)) with
    | none => s.ret p (-1)
    | some _ => s.lookup p msqid fun _ a => s.setPc p (.sending (s.refTo a) ⟨msgsz, typ, text⟩)
  | _, _, _ => s.ret p (-1)

/-- `sys_msgsnd` fills the node that `kalloc` returns. -/
def msgsndFill (s : MsgSt P A) (p : P) (q : QueueRef A) (c : SendCall) (page : Option A) (junk : Nat → UInt8) :
    Option (MsgSt P A) :=
  match page with
  | none => some (s.ret p (-1))
  | some a =>
    match s.page a with
    | .free =>
      if NODEROOM < c.msgsz then some (s.fail .overrun)
      else
        let s' := { s with page := update s.page a (.node (c.node q.inst junk)) }
        some (s'.setPc p (.appending q a c))
    | _ => none

/-- The critical section of `sys_msgsnd`. -/
def msgsndLink (s : MsgSt P A) (p : P) (q : QueueRef A) (node : A) (c : SendCall) : MsgSt P A :=
  match s.deref q with
  | none => s.fail .freedQueue
  | some Q =>
    match msgsndAppend s.page q.page Q node with
    | .error f => s.fail f
    | .ok h =>
      let s' : MsgSt P A := { s with page := h, log := s.log ++ [.sent p q.inst c.msg] }
      (s'.wakeup q.page).ret p 0

/-- `sys_msgrcv`, up to its release of the list. -/
def sysMsgrcv (s : MsgSt P A) (p : P) (msqid msgp msgsz msgtyp msgflg : Arg) (sz : Nat) : MsgSt P A :=
  match msqid, msgsz, msgtyp, msgflg with
  | some msqid, some msgsz, some msgtyp, some msgflg =>
    s.lookup p msqid fun _ a => s.setPc p (.receiving (s.refTo a) ⟨msgp, msgsz, msgtyp, msgflg, sz⟩)
  | _, _, _, _ => s.ret p (-1)

/-- One turn of the outer loop of `sys_msgrcv`, under `queue->lock`: it unlinks a node, or gives up, or sleeps. -/
def msgrcvScan (s : MsgSt P A) (p : P) (q : QueueRef A) (c : RecvCall) : MsgSt P A :=
  match s.deref q with
  | none => s.fail .freedQueue
  | some Q =>
    match seekNode s.page c.msgtyp Q.head with
    | .found prev a =>
      match nodeAt s.page a with
      | none => s.fail .dangling
      | some n =>
        let s' : MsgSt P A := { s with page := msgrcvUnlink s.page q.page Q prev a n.next,
                                       log := s.log ++ [.took p q.inst c n.msg] }
        s'.setPc p (.delivering a c)
    | .absent =>
      if hasFlag c.msgflg IPC_NOWAIT then s.ret p (-1)
      else if s.killed p then s.ret p (-1)
      else s.setPc p (.asleep q c)
    | .dangling => s.fail .dangling
    | .endless => s.fail .endless

/-- The end of a `sys_msgrcv` that has a node: it is copied out and freed, or only freed when the buffer is not the
caller's. -/
def msgrcvDeliver (s : MsgSt P A) (p : P) (a : A) (c : RecvCall) (beyond : Nat → UInt8) : MsgSt P A :=
  match nodeAt s.page a with
  | none => s.fail .dangling
  | some n =>
    let size := copysz n.length c.msgsz
    let s' := { s with page := update s.page a .free }
    match argptr c.sz c.msgp (int32 (LONGSIZE + size)) with
    | none => s'.ret p (-1)
    | some addr => { s'.setPc p .user with log := s.log ++ [.received p addr n.msgtyp (n.copied beyond size) size] }

/-- The unlinking of `currentnode` in `sys_msgctl`, under `queue_list_lock`; `next` is what it points to. -/
def msgctlUnlink (s : MsgSt P A) (previousnode next : Option A) : MsgSt P A :=
  match previousnode with
  | some b => { s with page := setNext s.page b next }
  | none => { s with listHead := next }

/-- `sys_msgctl`, up to its release of the list. -/
def sysMsgctl (s : MsgSt P A) (p : P) (msqid cmd : Arg) : MsgSt P A :=
  match msqid, cmd with
  | some msqid, some cmd =>
    if cmd ≠ IPC_RMID then s.ret p (-1)
    else s.lookup p msqid fun prev a =>
      (msgctlUnlink s prev ((nextQueue s.page a).getD none)).setPc p (.removing (s.refTo a))
  | _, _ => s.ret p (-1)

/-- `sys_msgctl` under `queue->lock`: the nodes are freed and the sleepers woken. -/
def msgctlDrain (s : MsgSt P A) (p : P) (q : QueueRef A) : MsgSt P A :=
  match s.deref q with
  | none => s.fail .freedQueue
  | some Q =>
    match freeNodes s.page (Fintype.card A + 1) Q.head with
    | .error f => s.fail f
    | .ok h =>
      let s' := { s with page := update h q.page (.queue { Q with head := none, tail := none }) }
      (s'.wakeup q.page).setPc p (.freeing q)

/-- The end of `sys_msgctl`: the queue is freed. -/
def msgctlFree (s : MsgSt P A) (p : P) (q : QueueRef A) : MsgSt P A :=
  match s.deref q with
  | none => s.fail .freedQueue
  | some _ => { s with page := update s.page q.page .free }.ret p 0

/-- One step of a run that no fault has ended: `none` when the process is not at a place where it could take it, or the
answer of the environment is not one it could give. -/
def msgMove (s : MsgSt P A) : MsgAct P A → Option (MsgSt P A)
  | .get p key msgflg page =>
    match s.pc p with
    | .user => sysMsgget s p key msgflg page
    | _ => none
  | .getId p =>
    match s.pc p with
    | .gotten q => some (msggetId s p q)
    | _ => none
  | .snd p msqid msgp msgsz msgflg sz typ text =>
    match s.pc p with
    | .user => some (sysMsgsnd s p msqid msgp msgsz msgflg sz typ text)
    | _ => none
  | .sndAlloc p page junk =>
    match s.pc p with
    | .sending q c => msgsndFill s p q c page junk
    | _ => none
  | .sndAppend p =>
    match s.pc p with
    | .appending q f c => some (msgsndLink s p q f c)
    | _ => none
  | .rcv p msqid msgp msgsz msgtyp msgflg sz =>
    match s.pc p with
    | .user => some (sysMsgrcv s p msqid msgp msgsz msgtyp msgflg sz)
    | _ => none
  | .rcvScan p =>
    match s.pc p with
    | .receiving q c => some (msgrcvScan s p q c)
    | _ => none
  | .deliver p beyond =>
    match s.pc p with
    | .delivering f c => some (msgrcvDeliver s p f c beyond)
    | _ => none
  | .ctl p msqid cmd =>
    match s.pc p with
    | .user => some (sysMsgctl s p msqid cmd)
    | _ => none
  | .ctlDrain p =>
    match s.pc p with
    | .removing q => some (msgctlDrain s p q)
    | _ => none
  | .ctlFree p =>
    match s.pc p with
    | .freeing q => some (msgctlFree s p q)
    | _ => none
  | .kill p =>
    let s' := { s with killed := update s.killed p true }
    match s.pc p with
    | .asleep q c => some (s'.setPc p (.receiving q c))
    | _ => some s'
  | .take a =>
    match s.page a with
    | .free => some { s with page := update s.page a .other }
    | _ => none
  | .give a =>
    match s.page a with
    | .other => some { s with page := update s.page a .free }
    | _ => none

/-- One step. -/
def msgStep (s : MsgSt P A) (a : MsgAct P A) : Option (MsgSt P A) :=
  match s.fault with
  | none => msgMove s a
  | some _ => none

/-- Every process outside the calls, no queue, and no page in use for one. -/
structure MsgSt.Boot (s : MsgSt P A) : Prop where
  page : ∀ a, s.page a = .free ∨ s.page a = .other
  listHead : s.listHead = none
  nextId : s.nextId = 1
  pc : ∀ p, s.pc p = .user
  insts : s.insts = 0
  fault : s.fault = none
  log : s.log = []

/-- Every process outside the calls, and every page free. -/
def MsgSt.start (P A : Type*) : MsgSt P A :=
  { page := fun _ => .free, listHead := none, nextId := 1, pc := fun _ => .user, killed := fun _ => false, insts := 0,
    fault := none, log := [] }

theorem MsgSt.start_boot (P A : Type*) : (MsgSt.start P A).Boot where
  page _ := .inl rfl
  listHead := rfl
  nextId := rfl
  pc _ := rfl
  insts := rfl
  fault := rfl
  log := rfl

/-- The message calls of any number of processes, in any order of their steps. -/
def msgSys : Sys (MsgSt P A) (MsgAct P A) where
  init := MsgSt.Boot
  step := msgStep

end System

end OsLab
