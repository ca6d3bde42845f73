import OsLab.MailView
import OsLab.Lib.Registry

/-!
# Keys and ids of the message queues

The queues of the list as the calls know them (`listing`), and as the entries of a registry (`queueRegistry`): a queue is entered under
its key, its number is its instance, and its id comes from that number.
-/

namespace OsLab

/-- A queue of the list, with its messages. -/
structure QueueRow (A : Type*) where
  page : A
  id : Int
  key : Int
  msgs : List Msg
  deriving DecidableEq

section View

variable {P A : Type*} [DecidableEq A] [Fintype A]

/-- The queues of the list, in its order. -/
def listing (s : MsgSt P A) : List (QueueRow A) :=
  (listed s).filterMap fun a => (queueAt s.page a).map fun q => ⟨a, q.id, q.key, messages s a⟩

/-- The queues of the list as entries. -/
def queueRegistry (s : MsgSt P A) : Registry Int A :=
  { made := s.insts
    entries := (listed s).filterMap fun a => (queueAt s.page a).map fun q => ⟨q.inst, q.key, a⟩ }

end View

end OsLab
