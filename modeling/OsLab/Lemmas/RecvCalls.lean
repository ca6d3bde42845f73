import OsLab.RecvCalls
import OsLab.Lemmas.QueueLocks
import OsLab.Lemmas.MailView

/-!
# The steps of one receiver among those of the others

A step of another process leaves a process where it is, or wakes it (`woken_of_other`), and leaves the node in its hands
(`keeps_hand`). A turn of the loop of `sys_msgrcv` that finds a node takes a message from its queue (`scan_found`), and one that finds
none changes no page (`scan_none`).
-/

namespace OsLab

open Function (update update_self update_of_ne)

namespace RecvAux

open QueueLockAux

variable {P A : Type*} [DecidableEq P] [DecidableEq A] {s t : MsgSt P A} {p r : P} {act : MsgAct P A}

/-! ## Where the others are -/

omit [DecidableEq A] in
theorem woken_of_moves (h : PcMoves s t r) (hp : p ≠ r) : (s.pc p).Woken (t.pc p) := .inl (h.other hp)

omit [DecidableEq A] in
theorem woken_setPc {c : MsgPc A} (ht : t.pc = s.pc) (hp : p ≠ r) : (s.pc p).Woken ((t.setPc r c).pc p) := by
  refine .inl ((update_of_ne hp ..).trans ?_)
  rw [ht]

/-- Another process sets its own place after a wakeup. -/
theorem woken_after_wakeup {c : MsgPc A} (a : A) (ht : t.pc = (s.wakeup a).pc) (hp : p ≠ r) :
    (s.pc p).Woken ((t.setPc r c).pc p) := by
  have hpc : (t.setPc r c).pc p = (s.wakeup a).pc p := (update_of_ne hp ..).trans (congrFun ht p)
  rw [hpc]
  exact woken_wakeup s a p

theorem woken_link (q : QueueRef A) (node : A) (c : SendCall) (hp : p ≠ r) : (s.pc p).Woken ((msgsndLink s r q node c).pc p) := by
  unfold msgsndLink
  split
  · exact .inl rfl
  · split
    · exact .inl rfl
    · exact woken_after_wakeup q.page rfl hp

variable [Fintype A]

theorem woken_scan (q : QueueRef A) (c : RecvCall) (hp : p ≠ r) : (s.pc p).Woken ((msgrcvScan s r q c).pc p) := by
  unfold msgrcvScan
  split
  · exact .inl rfl
  · split
    · split
      · exact .inl rfl
      · exact woken_setPc rfl hp
    · split
      · exact woken_setPc rfl hp
      · split
        · exact woken_setPc rfl hp
        · exact woken_setPc rfl hp
    · exact .inl rfl
    · exact .inl rfl

theorem woken_ctl (msqid cmd : Arg) (hp : p ≠ r) : (s.pc p).Woken ((sysMsgctl s r msqid cmd).pc p) := by
  unfold sysMsgctl
  split
  · split
    · exact woken_setPc rfl hp
    · unfold MsgSt.lookup
      split
      · rename_i prev a _
        cases prev <;> exact woken_setPc rfl hp
      · exact woken_setPc rfl hp
      · exact .inl rfl
      · exact .inl rfl
  · exact woken_setPc rfl hp

theorem woken_drain (q : QueueRef A) (hp : p ≠ r) : (s.pc p).Woken ((msgctlDrain s r q).pc p) := by
  unfold msgctlDrain
  split
  · exact .inl rfl
  · split
    · exact .inl rfl
    · exact woken_after_wakeup q.page rfl hp

omit [Fintype A] in
theorem woken_free (q : QueueRef A) (hp : p ≠ r) : (s.pc p).Woken ((msgctlFree s r q).pc p) := by
  unfold msgctlFree
  split
  · exact .inl rfl
  · exact woken_setPc rfl hp

/-- A step of another process leaves a process where it is, or wakes it. -/
theorem woken_of_other (h : msgStep s act = some t) (hp : act.proc ≠ some p) : (s.pc p).Woken (t.pc p) := by
  have hne : ∀ {r : P}, act.proc = some r → p ≠ r := fun hr he => hp (he ▸ hr)
  cases (msgMoves_of_msgStep h).2 with
  | get _ hget => exact woken_of_moves (.get hget) (hne rfl)
  | getId => exact woken_of_moves (.getId _) (hne rfl)
  | snd => exact woken_of_moves (.snd ..) (hne rfl)
  | sndAlloc _ hfill => exact woken_of_moves (.fill hfill) (hne rfl)
  | sndAppend => exact woken_link _ _ _ (hne rfl)
  | rcv => exact woken_of_moves (.rcv ..) (hne rfl)
  | rcvScan => exact woken_scan _ _ (hne rfl)
  | deliver => exact woken_of_moves (.deliver ..) (hne rfl)
  | ctl => exact woken_ctl _ _ (hne rfl)
  | ctlDrain => exact woken_drain _ (hne rfl)
  | ctlFree => exact woken_free _ (hne rfl)
  | wake hr => exact woken_wake hr
  | kill | take | give => exact .inl rfl

/-- The place of a process in a call of `sys_msgrcv` after its lookup. -/
def MsgPc.InRecv : MsgPc A → Prop
  | .receiving _ _ => True
  | .asleep _ _ => True
  | .delivering _ _ => True
  | _ => False

/-- The only steps of a process in `sys_msgrcv` are the turns of its loop and the delivery. -/
theorem own_step (h : msgStep s act = some t) (hact : act.proc = some p) (hp : MsgPc.InRecv (s.pc p)) :
    (act = .rcvScan p ∧ ∃ q c, s.pc p = .receiving q c) ∨ ∃ beyond f c, act = .deliver p beyond ∧ s.pc p = .delivering f c := by
  cases (msgMoves_of_msgStep h).2 with
  | rcvScan hpc =>
    cases hact
    exact .inl ⟨rfl, _, _, hpc⟩
  | deliver hpc =>
    cases hact
    exact .inr ⟨_, _, _, rfl, hpc⟩
  | wake | kill | take | give => cases hact
  | _ =>
    cases hact
    simp [MsgPc.InRecv, *] at hp

/-! ## The node in hand -/

section Hand

variable {ql ql' : List A} {nl nl' : A → List A} {f : A} {c : RecvCall} {n : MsgNode A}

omit [Fintype A] in
/-- The node that a receiver has in its hands is the same after every step but the delivery. -/
theorem keeps_hand (hi : QueueInv s ql nl) (h : Outcome s ql nl act t ql' nl') (hp : s.pc p = .delivering f c)
    (hn : nodeAt s.page f = some n) (hact : ∀ beyond, act ≠ .deliver p beyond) : nodeAt t.page f = some n := by
  have hhand : (s.pc p).hand = some f := by
    rw [hp]
    rfl
  -- a page that holds no node is another one
  have hother : ∀ {a : A} (x : Page A), nodeAt s.page a = none → nodeAt (update s.page a x) f = some n := by
    intro a x ha
    have hne : f ≠ a := by
      rintro rfl
      rw [hn] at ha
      cases ha
    rw [nodeAt, update_of_ne hne]
    exact hn
  cases h with
  | quiet page => rw [page, hn]
  | create k pc free | fill pc free => exact hother _ (by simp [nodeAt, free])
  | append pc queue inst rel rep | unlink pc queue inst split node wanted first rel rep =>
    exact (rel.node_eq ((hi.pcs p).loose hhand queue)).trans hn
  | @deliver p' f' c' n' beyond e pc node event =>
    have hne : f ≠ f' := by
      rintro rfl
      obtain rfl := hi.hand_inj hhand (by rw [pc]; rfl : (s.pc p').hand = some f)
      exact hact beyond rfl
    show nodeAt (update s.page f' .free) f = some n
    rw [nodeAt, update_of_ne hne]
    exact hn
  | unlist pc split queue rel rep => exact (rel.node_eq f).trans hn
  | @drain p' q Q h pc queue inst freed rep =>
    have hloose := (hi.pcs p).loose hhand queue
    have hne : f ≠ q.page := by
      rintro rfl
      simp only [nodeAt, queueAt] at hn queue
      cases hpage : s.page q.page <;> simp [hpage] at hn queue
    show nodeAt (update h q.page _) f = some n
    rw [nodeAt, update_of_ne hne, freed, if_neg hloose]
    exact hn
  | @free p' q Q pc queue inst =>
    refine hother _ ?_
    simp only [nodeAt, queueAt] at queue ⊢
    cases hpage : s.page q.page <;> simp [hpage] at queue ⊢
  | env act_eq node queue node' queue' => exact hother _ node

end Hand

/-! ## A turn of the loop -/

/-- The messages of a queue are on its pages. -/
theorem messages_congr (h : t.page = s.page) (a : A) : messages t a = messages s a := by
  simp only [messages, queuedNodes, h]

/-- A turn that finds no node changes no page. -/
theorem scan_none {q : QueueRef A} {c : RecvCall} (hp : s.pc p = .receiving q c) (hno : scanned s p = none) :
    (msgrcvScan s p q c).page = s.page := by
  simp only [scanned, hp] at hno
  unfold msgrcvScan
  cases hd : s.deref q with
  | none => rfl
  | some Q =>
    simp only [hd] at hno ⊢
    cases hseek : seekNode s.page c.msgtyp Q.head with
    | found prev a =>
      simp only [hseek, Option.map_eq_none_iff] at hno ⊢
      rw [hno]
      rfl
    | absent =>
      dsimp only
      split
      · rfl
      · split <;> rfl
    | dangling | endless => rfl

/-- A turn that finds a node takes it into the hands of the receiver, and its queue has a message less. -/
theorem scan_found {q : QueueRef A} {c d : RecvCall} {n : MsgNode A} (hs : msgSys.Reachable s) (hp : s.pc p = .receiving q c)
    (hfound : scanned s p = some (d, n)) (hst : msgStep s (.rcvScan p) = some t) :
    d = c ∧ (∃ f m, t.pc p = .delivering f c ∧ nodeAt t.page f = some m ∧ m.length = n.length) ∧
      messages t q.page ≠ messages s q.page := by
  obtain ⟨ql, nl, hi⟩ := queueInv_of_reachable hs
  have hst : msgrcvScan s p q c = t := rcvScan_eq hp hst
  simp only [scanned, hp] at hfound
  cases hd : s.deref q with
  | none => simp [hd] at hfound
  | some Q =>
    obtain ⟨hQ, hinst⟩ := queueAt_of_deref hd
    rcases hi.seekNode hQ c.msgtyp with ⟨l₁, f, l₂, m, hsplit, hm, hw, hfirst, heq⟩ | ⟨-, heq⟩
    · obtain ⟨hd', tl, hrel, hrep⟩ := hi.heap.unlink hQ hsplit hm
      simp only [hd, heq, hm, Option.map_some, Option.some.injEq, Prod.mk.injEq] at hfound
      obtain ⟨rfl, rfl⟩ := hfound
      simp only [msgrcvScan, hd, heq, hm] at hst
      have hi' := hi.outcome (.unlink hp hQ hinst hsplit hm hw hfirst hrel hrep)
      rw [hst] at hi'
      obtain ⟨R, hR, -⟩ := hrel.queue_some hQ
      have hpage : t.page = msgrcvUnlink s.page q.page Q l₁.getLast? f m.next := by rw [← hst]; rfl
      rw [← hpage] at hR hrel
      obtain ⟨m', hm', hbody⟩ := hrel.node_some hm
      refine ⟨rfl, ⟨f, m', ?_, hm', MsgNode.length_of_body hbody⟩, fun hsame => ?_⟩
      · rw [← hst]
        exact update_self ..
      · rw [hi'.messages_eq hR, hi.messages_eq hQ, update_self, hsplit] at hsame
        have hlen := congrArg List.length hsame
        simp only [List.filterMap_append, List.filterMap_cons, hm, Option.map_some, hrel.msg_eq, List.length_append,
          List.length_cons] at hlen
        omega
    · simp [hd, heq] at hfound

end RecvAux

end OsLab
