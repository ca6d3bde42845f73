import OsLab.MsgQueue
import OsLab.Lib.Mailbox

/-!
# The message queues as boxes of messages

What the pages and the record say about each queue of the list, as a box of the library: the messages in it, and those that have
ever been linked to it and unlinked from it (`mailView`); and which step of the boxes a step of the processes is (`mailAct`).
-/

namespace OsLab

section Record

variable {P : Type*} [DecidableEq P]

/-- The messages linked to the queue of this instance, oldest first. -/
def sentTo (i : Nat) (log : List (MsgEvent P)) : List Msg :=
  log.filterMap fun
    | .sent _ j m => if j = i then some m else none
    | _ => none

/-- The messages unlinked from the queue of this instance, oldest first. -/
def takenFrom (i : Nat) (log : List (MsgEvent P)) : List Msg :=
  log.filterMap fun
    | .took _ j _ m => if j = i then some m else none
    | _ => none

/-- The messages that a process has unlinked, with the calls it did so in, oldest first. -/
def takenBy (p : P) (log : List (MsgEvent P)) : List (RecvCall × Msg) :=
  log.filterMap fun
    | .took p' _ c m => if p' = p then some (c, m) else none
    | _ => none

/-- What `sys_msgrcv` has copied out to a process and returned to it: the type, the bytes, the value; oldest first. -/
def receivedBy (p : P) (log : List (MsgEvent P)) : List (Int × List UInt8 × Int) :=
  log.filterMap fun
    | .received p' _ typ text r => if p' = p then some (typ, text, r) else none
    | _ => none

end Record

/-- What a call that takes a message should deliver: its type, as much of its payload as the caller has asked for, and the
size of that. -/
def delivery (c : RecvCall) (m : Msg) : Int × List UInt8 × Int :=
  (m.typ, m.text.take c.msgsz.toNat, min m.text.length c.msgsz)

/-- The kind that a receiver of this type wants: zero is for any. -/
def wantOf (msgtyp : Int) : Option Int := if msgtyp = 0 then none else some msgtyp

section View

variable {P A : Type*} [DecidableEq A] [Fintype A]

/-- The queues of the list. -/
def listed (s : MsgSt P A) : List A := walk (nextQueue s.page) (Fintype.card A) s.listHead

/-- The nodes of the queue on a page, from `head` on. -/
def queuedNodes (s : MsgSt P A) (a : A) : List A :=
  match queueAt s.page a with
  | some q => walk (nextNode s.page) (Fintype.card A) q.head
  | none => []

/-- The messages of the queue on a page. -/
def messages (s : MsgSt P A) (a : A) : List Msg :=
  (queuedNodes s a).filterMap fun f => (nodeAt s.page f).map MsgNode.msg

/-- Each queue of the list as a box. -/
def mailView (s : MsgSt P A) : Mail A Msg := fun a =>
  if a ∈ listed s then
    (queueAt s.page a).map fun q => ⟨messages s a, sentTo q.inst s.log, takenFrom q.inst s.log⟩
  else none

/-- The step of the boxes that a step from `s` to `s'` is; none when it is one that they do not see. -/
def mailAct (s s' : MsgSt P A) : MsgAct P A → Option (MailAct A Int Msg)
  | .get _ _ _ page => if s'.insts = s.insts then none else page.map .opens
  | .sndAppend p =>
    match s.pc p with
    | .appending q _ c => if q.page ∈ listed s then some (.send q.page c.msg) else none
    | _ => none
  | .rcvScan p =>
    match s.pc p with
    | .receiving q c =>
      if q.page ∈ listed s then
        ((messages s q.page).find? (wants Msg.typ (wantOf c.msgtyp))).map (.take q.page (wantOf c.msgtyp))
      else none
    | _ => none
  | .ctl p _ _ =>
    match s'.pc p with
    | .removing q => some (.closes q.page)
    | _ => none
  | _ => none

/-- The boxes take this step, or none. -/
def MailMoves (m m' : Mail A Msg) : Option (MailAct A Int Msg) → Prop
  | none => m' = m
  | some b => Mail.step Msg.typ m b = some m'

/-- The messages that a process has in its hands and not yet copied out. -/
def inHand (s : MsgSt P A) (p : P) : List (RecvCall × Msg) :=
  match s.pc p with
  | .delivering f c => ((nodeAt s.page f).map fun n => (c, n.msg)).toList
  | _ => []

end View

end OsLab
