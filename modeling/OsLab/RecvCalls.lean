import OsLab.MailView

/-!
# A call of msgrcv from its beginning to its end

`finishes p r s acts` says that the steps `acts` from `s` are those of the system from a step of `p` on to the one with which its call
returns `r`, with the steps of the other processes among them.
-/

namespace OsLab

section

variable {P A : Type*}

/-- The process that takes a step. A `kill` is taken by another than its target. -/
def MsgAct.proc : MsgAct P A → Option P
  | .get p _ _ _ => some p
  | .getId p => some p
  | .snd p _ _ _ _ _ _ _ => some p
  | .sndAlloc p _ _ => some p
  | .sndAppend p => some p
  | .rcv p _ _ _ _ _ _ => some p
  | .rcvScan p => some p
  | .deliver p _ => some p
  | .ctl p _ _ => some p
  | .ctlDrain p => some p
  | .ctlFree p => some p
  | .kill _ => none
  | .take _ => none
  | .give _ => none

/-- A step from `s` to `s'` with which the call of `p` returns `r`. -/
def Returns (p : P) (r : Int) (s s' : MsgSt P A) : Prop :=
  s'.log = s.log ++ [.ret p r] ∨ ∃ addr typ text, s'.log = s.log ++ [.received p addr typ text r]

variable [DecidableEq P] [DecidableEq A] [Fintype A]

/-- The steps lead to the return of `r` by the call that `p` is in, and end with it. -/
def finishes (p : P) (r : Int) (s : MsgSt P A) : List (MsgAct P A) → Prop
  | [] => False
  | act :: acts => ∃ s', msgStep s act = some s' ∧
      (s'.pc p = .user ∧ acts = [] ∧ Returns p r s s' ∨ s'.pc p ≠ .user ∧ finishes p r s' acts)

/-- A step of `p` leaves the messages of every queue as they are. -/
def LeavesMessages (p : P) (s : MsgSt P A) (act : MsgAct P A) : Prop :=
  act.proc = some p → ∀ s', msgStep s act = some s' → ∀ a, messages s' a = messages s a

/-- The node that a turn of the loop of `sys_msgrcv` by `p` finds, with the call. -/
def scanned (s : MsgSt P A) (p : P) : Option (RecvCall × MsgNode A) :=
  match s.pc p with
  | .receiving q c =>
    match s.deref q with
    | some Q =>
      match seekNode s.page c.msgtyp Q.head with
      | .found _ a => (nodeAt s.page a).map fun n => (c, n)
      | _ => none
    | none => none
  | _ => none

/-- What a turn of the loop of `p` finds can be delivered: the buffer is the caller's, and the size copied is not taken for a failure. -/
def Deliverable (p : P) (s : MsgSt P A) (act : MsgAct P A) : Prop :=
  act = .rcvScan p → ∀ c n, scanned s p = some (c, n) →
    argptr c.sz c.msgp (int32 (LONGSIZE + copysz n.length c.msgsz)) ≠ none ∧ copysz n.length c.msgsz ≠ -1

end

end OsLab
