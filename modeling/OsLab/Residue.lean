import OsLab.MailView

/-!
# What a page held before

`kalloc` returns a page with whatever it held, and `sys_msgsnd` writes no more of it than the message takes. `fill` puts one byte in
place of all that: behind the messages of the nodes of a state, and in the page that a step gets from `kalloc` and the memory behind a
node that a step reads. Two runs whose steps are the same once they are filled differ in nothing but what memory held.
-/

namespace OsLab

section

variable {P A : Type*}

/-- The node with `b` everywhere behind its message. -/
def MsgNode.fill (b : UInt8) (n : MsgNode A) : MsgNode A :=
  { n with data := fun k => if (k : Int) < n.length then n.data k else b }

/-- The page with `b` everywhere behind the message that it holds. -/
def Page.fill (b : UInt8) : Page A → Page A
  | .free => .free
  | .other => .other
  | .node n => .node (n.fill b)
  | .queue q => .queue q

/-- Every page filled. -/
def fillPages (b : UInt8) (h : A → Page A) : A → Page A := fun a => (h a).fill b

/-- The state with every page filled. -/
def MsgSt.fill (b : UInt8) (s : MsgSt P A) : MsgSt P A := { s with page := fillPages b s.page }

/-- The step, with memory full of `b`. -/
def MsgAct.fill (b : UInt8) : MsgAct P A → MsgAct P A
  | .sndAlloc p page _ => .sndAlloc p page fun _ => b
  | .deliver p _ => .deliver p fun _ => b
  | act => act

/-- The steps of two runs that differ in nothing but what memory held. -/
def SameCalls (acts acts' : List (MsgAct P A)) : Prop := acts'.map (MsgAct.fill 0) = acts.map (MsgAct.fill 0)

/-- What `sys_msgrcv` is about to copy out is of the message: it copies no more than the message holds and the page has room for,
unless the buffer is refused. -/
def Covered (s : MsgSt P A) : MsgAct P A → Prop
  | .deliver p _ =>
    match s.pc p with
    | .delivering f c =>
      match nodeAt s.page f with
      | some n =>
        argptr c.sz c.msgp (int32 (LONGSIZE + copysz n.length c.msgsz)) = none ∨
          (copysz n.length c.msgsz).toNat ≤ min n.length.toNat NODEROOM
      | none => True
    | _ => True
  | _ => True

instance (s : MsgSt P A) (act : MsgAct P A) : Decidable (Covered s act) := by
  unfold Covered
  split
  · split
    · split <;> infer_instance
    · infer_instance
  · infer_instance

end

end OsLab
