import OsLab.MsgQueue

/-!
# The user's memory in the message calls

Which addresses of their caller `sys_msgsnd` reads and `sys_msgrcv` writes. Both go through `msgp` after one call of `argptr`: the four
bytes of the type, and behind them the payload when there is any.
-/

namespace OsLab

/-- An access through `msgp`, by a process of `sz` bytes: its address, and the size of the payload. -/
structure UserAccess where
  addr : Nat
  size : Int
  sz : Nat
  deriving DecidableEq, Repr

/-- `n` bytes from an address on. The address is a `uint`. -/
def byteRange (addr n : Nat) : List Nat := (List.range n).map fun k => u32 (addr + k)

/-- The addresses of an access: `*(long*)msgp`, and the `memmove` for a size above zero. -/
def UserAccess.bytes (a : UserAccess) : List Nat :=
  byteRange a.addr LONGSIZE ++ if 0 < int32 a.size then byteRange (a.addr + LONGSIZE) (uintOf a.size) else []

/-- All of an access lies in its process. -/
def UserAccess.Inside (a : UserAccess) : Prop := ∀ x ∈ a.bytes, x < a.sz

instance (a : UserAccess) : Decidable a.Inside := inferInstanceAs (Decidable (∀ x ∈ _, _))

section

variable {P A : Type*}

/-- The process of a step that may come to an access. -/
def MsgAct.accessor : MsgAct P A → Option P
  | .snd p _ _ _ _ _ _ _ => some p
  | .deliver p _ => some p
  | _ => none

variable [DecidableEq P] [Fintype A]

/-- The access that a step comes to. The one of `sys_msgsnd` follows when it has got its node. -/
def access? (s : MsgSt P A) : MsgAct P A → Option UserAccess
  | .snd p msqid msgp msgsz msgflg sz typ text =>
    match (sysMsgsnd s p msqid msgp msgsz msgflg sz typ text).pc p, msgp with
    | .sending _ c, some i => some ⟨uintOf i, c.msgsz, sz⟩
    | _, _ => none
  | .deliver p _ =>
    match s.pc p with
    | .delivering f c =>
      (nodeAt s.page f).bind fun n =>
        (argptr c.sz c.msgp (int32 (LONGSIZE + copysz n.length c.msgsz))).map fun addr => ⟨addr, copysz n.length c.msgsz, c.sz⟩
    | _ => none
  | _ => none

end

end OsLab
