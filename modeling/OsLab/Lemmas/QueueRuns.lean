import OsLab.Spill
import OsLab.Lemmas.QueueInv

/-!
# Runs of the message calls

Every step has one of the outcomes that keep the invariant of the queues, or stops the run (`QueueInv.step_outcome`): no search goes
wrong or round in a circle, and what stops a run is a process that has a pointer to a queue that is gone, or a message that does not
fit the page of its node (`Stray`). In a run in which a queue is freed only when no other process has a pointer to it, and no more is
sent than fits a page (`LifetimeOk`), there is no such process.
-/

namespace OsLab

open Function (update update_self update_of_ne)

variable {P A : Type*} {p : P} {q : QueueRef A} {f a : A} {Q : MsgQueue A}

/-- What keeps a queue in place while it is in use: a queue is freed only when no other process has a pointer to it, and a
message fits the page of its node. -/
structure LifetimeOk (s : MsgSt P A) (act : MsgAct P A) : Prop where
  alone : ∀ p q, act = .ctlFree p → s.pc p = .freeing q → ∀ p', p' ≠ p → ∀ q', (s.pc p').ref = some q' → q'.page ≠ q.page
  fits : ∀ d, act.sendCall = some d → d.msgsz ≤ NODEROOM

/-- Some process has a pointer to a queue that is gone, or a message to send that does not fit a page. -/
def Stray (s : MsgSt P A) : Prop :=
  (∃ p q, (s.pc p).ref = some q ∧ s.deref q = none) ∨ ∃ p d, (s.pc p).sendCall = some d ∧ NODEROOM < d.msgsz

/-- Every pointer to a queue that a process still has a use for is to a queue that is there. -/
def RefsOk (s : MsgSt P A) : Prop := ∀ p q, (s.pc p).ref = some q → q.Valid s.page

/-- No step has stopped the run, and none will. -/
structure SafeInv (s : MsgSt P A) : Prop where
  noFault : s.fault = none
  refs : RefsOk s
  sized : s.Sized

/-- What a step can do: the place its process has to be at, and what the function comes to that is called there. -/
inductive MsgMoves [DecidableEq P] [DecidableEq A] [Fintype A] (s : MsgSt P A) : MsgAct P A → MsgSt P A → Prop
  | get {p : P} {key msgflg : Arg} {page : Option A} {t : MsgSt P A} (hp : s.pc p = .user)
    (h : sysMsgget s p key msgflg page = some t) : MsgMoves s (.get p key msgflg page) t
  | getId {p : P} {q : QueueRef A} (hp : s.pc p = .gotten q) : MsgMoves s (.getId p) (msggetId s p q)
  | snd {p : P} {msqid msgp msgsz msgflg : Arg} {sz : Nat} {typ : Int} {text : Nat → UInt8} (hp : s.pc p = .user) :
    MsgMoves s (.snd p msqid msgp msgsz msgflg sz typ text) (sysMsgsnd s p msqid msgp msgsz msgflg sz typ text)
  | sndAlloc {p : P} {q : QueueRef A} {c : SendCall} {page : Option A} {junk : Nat → UInt8} {t : MsgSt P A} (hp : s.pc p = .sending q c)
    (h : msgsndFill s p q c page junk = some t) : MsgMoves s (.sndAlloc p page junk) t
  | sndAppend {p : P} {q : QueueRef A} {f : A} {c : SendCall} (hp : s.pc p = .appending q f c) :
    MsgMoves s (.sndAppend p) (msgsndLink s p q f c)
  | rcv {p : P} {msqid msgp msgsz msgtyp msgflg : Arg} {sz : Nat} (hp : s.pc p = .user) :
    MsgMoves s (.rcv p msqid msgp msgsz msgtyp msgflg sz) (sysMsgrcv s p msqid msgp msgsz msgtyp msgflg sz)
  | rcvScan {p : P} {q : QueueRef A} {c : RecvCall} (hp : s.pc p = .receiving q c) : MsgMoves s (.rcvScan p) (msgrcvScan s p q c)
  | deliver {p : P} {f : A} {c : RecvCall} {beyond : Nat → UInt8} (hp : s.pc p = .delivering f c) :
    MsgMoves s (.deliver p beyond) (msgrcvDeliver s p f c beyond)
  | ctl {p : P} {msqid cmd : Arg} (hp : s.pc p = .user) : MsgMoves s (.ctl p msqid cmd) (sysMsgctl s p msqid cmd)
  | ctlDrain {p : P} {q : QueueRef A} (hp : s.pc p = .removing q) : MsgMoves s (.ctlDrain p) (msgctlDrain s p q)
  | ctlFree {p : P} {q : QueueRef A} (hp : s.pc p = .freeing q) : MsgMoves s (.ctlFree p) (msgctlFree s p q)
  | wake {p : P} {q : QueueRef A} {c : RecvCall} (hp : s.pc p = .asleep q c) :
    MsgMoves s (.kill p) ({ s with killed := update s.killed p true }.setPc p (.receiving q c))
  | kill {p : P} (hp : ∀ q c, s.pc p ≠ .asleep q c) : MsgMoves s (.kill p) { s with killed := update s.killed p true }
  | take {a : A} (ha : s.page a = .free) : MsgMoves s (.take a) { s with page := update s.page a .other }
  | give {a : A} (ha : s.page a = .other) : MsgMoves s (.give a) { s with page := update s.page a .free }

section Moves

variable [DecidableEq P] [DecidableEq A] [Fintype A] {s t : MsgSt P A} {act : MsgAct P A}

/-- Every step is one of the moves. -/
theorem msgMoves_of_msgMove (h : msgMove s act = some t) : MsgMoves s act t := by
  cases act with
  | get =>
    simp only [msgMove] at h
    split at h
    · exact .get ‹_› h
    · cases h
  | sndAlloc =>
    simp only [msgMove] at h
    split at h
    · exact .sndAlloc ‹_› h
    · cases h
  | kill =>
    simp only [msgMove] at h
    split at h
    · cases h
      exact .wake ‹_›
    · cases h
      exact .kill ‹_›
  | _ =>
    simp only [msgMove] at h
    split at h
    · cases h
      constructor
      assumption
    · cases h

/-- A step is one of these, and is taken only while the run has not been stopped. -/
theorem msgMoves_of_msgStep (h : msgStep s act = some t) : s.fault = none ∧ MsgMoves s act t := by
  unfold msgStep at h
  split at h
  · exact ⟨‹_›, msgMoves_of_msgMove h⟩
  · cases h

/-- The turn of the loop of a receiver. -/
theorem rcvScan_eq {c : RecvCall} (hp : s.pc p = .receiving q c) (h : msgStep s (.rcvScan p) = some t) : msgrcvScan s p q c = t := by
  cases (msgMoves_of_msgStep h).2 with
  | rcvScan hpc =>
    cases hp.symm.trans hpc
    rfl

/-- The delivery of the node in the hands of a receiver. -/
theorem deliver_eq {c : RecvCall} {beyond : Nat → UInt8} (hp : s.pc p = .delivering f c) (h : msgStep s (.deliver p beyond) = some t) :
    msgrcvDeliver s p f c beyond = t := by
  cases (msgMoves_of_msgStep h).2 with
  | deliver hpc =>
    cases hp.symm.trans hpc
    rfl

end Moves

section Safe

variable {s s' : MsgSt P A}

theorem RefsOk.boot (hb : s.Boot) : RefsOk s := by
  intro p q hq
  rw [hb.pc] at hq
  cases hq

theorem MsgSt.Sized.boot (hb : s.Boot) : s.Sized := by
  intro p d hd
  rw [hb.pc] at hd
  cases hd

theorem SafeInv.boot (hb : s.Boot) : SafeInv s where
  noFault := hb.fault
  refs := .boot hb
  sized := .boot hb

/-- A pointer to a queue that the process still has a use for can be followed. -/
theorem RefsOk.deref (hr : RefsOk s) (hq : (s.pc p).ref = some q) : ∃ Q, s.deref q = some Q := by
  obtain ⟨Q, hQ, hinst⟩ := hr p q hq
  exact ⟨Q, by simp [MsgSt.deref, hQ, hinst]⟩

/-- No pointer strays, so no step does. -/
theorem SafeInv.not_stray (hs : SafeInv s) : ¬Stray s := by
  rintro (⟨p, q, hq, hnone⟩ | ⟨p, d, hd, hlt⟩)
  · obtain ⟨Q, hQ⟩ := hs.refs.deref hq
    simp [hnone] at hQ
  · exact absurd (hs.sized p d hd) (not_le.mpr hlt)

theorem MsgPc.Woken.ref {c c' : MsgPc A} (hw : c.Woken c') : c'.ref = c.ref := by
  rcases hw with rfl | ⟨q, d, rfl, rfl⟩ <;> rfl

theorem MsgPc.Woken.sendCall {c c' : MsgPc A} (hw : c.Woken c') : c'.sendCall = c.sendCall := by
  rcases hw with rfl | ⟨q, d, rfl, rfl⟩ <;> rfl

/-- A step of one process: the others are where they were, or woken, and the queues that they point to stay. -/
theorem RefsOk.moved (hr : RefsOk s) (p : P) (others : ∀ p', p' ≠ p → (s.pc p').Woken (s'.pc p'))
    (kept : ∀ p', p' ≠ p → ∀ q, (s.pc p').ref = some q → q.Valid s.page → q.Valid s'.page)
    (own : ∀ q, (s'.pc p).ref = some q → q.Valid s'.page) : RefsOk s' := by
  intro p' q hq
  by_cases hp : p' = p
  · subst hp
    exact own q hq
  · rw [(others p' hp).ref] at hq
    exact kept p' hp q hq (hr p' q hq)

variable [DecidableEq P] [DecidableEq A] {ql ql' : List A} {nl nl' : A → List A} {act : MsgAct P A}

/-- Every outcome keeps the pointers good, when a queue is freed only while no other process has a pointer to it. -/
theorem RefsOk.outcome (hr : RefsOk s) (hi : QueueInv s ql nl)
    (alone : ∀ p q, act = .ctlFree p → s.pc p = .freeing q → ∀ p', p' ≠ p → ∀ q', (s.pc p').ref = some q' → q'.page ≠ q.page)
    (h : Outcome s ql nl act s' ql' nl') : RefsOk s' := by
  cases h with
  | quiet page listHead insts nextId fault pc refs calls log mute =>
    intro p q hq
    rw [page]
    rcases refs p q hq with hq | hv
    · exact hr p q hq
    · exact hv
  | @create p key msgflg a k pc free =>
    refine hr.moved p (fun p' hp => .inl ?_) (fun p' _ q _ hv => ?_) ?_
    · simp [MsgSt.ret, MsgSt.setPc, hp]
    · obtain ⟨Q, hQ, hinst⟩ := hv
      have hqa : q.page ≠ a := by
        rintro rfl
        simp [queueAt, free] at hQ
      exact ⟨Q, by simpa [MsgSt.ret, MsgSt.setPc, hqa] using hQ, hinst⟩
    · simp [MsgSt.ret, MsgSt.setPc, MsgPc.ref]
  | @fill p q c a junk pc free =>
    have hkept : QueuesKept s.page (update s.page a (.node (c.node q.inst junk))) := by
      intro b R hR
      have hba : b ≠ a := by
        rintro rfl
        simp [queueAt, free] at hR
      exact ⟨R, by simpa [hba] using hR, rfl⟩
    refine hr.moved p (fun p' hp => .inl ?_) (fun p' _ q' _ hv => hv.kept hkept) ?_
    · simp [MsgSt.setPc, hp]
    · intro q' hq'
      have hqq : q = q' := by simpa [MsgSt.setPc, MsgPc.ref] using hq'
      subst hqq
      exact (hr p q (by rw [pc]; rfl)).kept hkept
  | @append p q f c h hd tl Q pc queue inst rel rep =>
    refine hr.moved p (fun p' hp => ?_) (fun p' _ q' _ hv => hv.kept rel.kept) ?_
    · simp only [MsgSt.ret, MsgSt.setPc, ne_eq, hp, not_false_eq_true, update_of_ne]
      exact woken_wakeup _ q.page p'
    · simp [MsgSt.ret, MsgSt.setPc, MsgPc.ref]
  | @unlink p q c l₁ l₂ f n h hd tl Q pc queue inst split node wanted first rel rep =>
    refine hr.moved p (fun p' hp => .inl ?_) (fun p' _ q' _ hv => hv.kept rel.kept) ?_
    · simp [MsgSt.setPc, hp]
    · simp [MsgSt.setPc, MsgPc.ref]
  | @deliver p f c n beyond e pc node event =>
    have hkept : QueuesKept s.page (update s.page f .free) := by
      intro b R hR
      have hbf : b ≠ f := by
        rintro rfl
        simp [queueAt_of_nodeAt node] at hR
      exact ⟨R, by simpa [hbf] using hR, rfl⟩
    refine hr.moved p (fun p' hp => .inl ?_) (fun p' _ q' _ hv => hv.kept hkept) ?_
    · simp [hp]
    · simp [MsgPc.ref]
  | @unlist p msqid cmd a Q l₁ l₂ h head pc split queue rel rep =>
    refine hr.moved p (fun p' hp => .inl ?_) (fun p' _ q' _ hv => hv.kept rel.kept) ?_
    · simp [MsgSt.setPc, hp]
    · intro q hq
      have hqq : (⟨a, Q.inst⟩ : QueueRef A) = q := by simpa [MsgSt.setPc, MsgPc.ref] using hq
      subst hqq
      exact QueueRef.Valid.kept ⟨Q, queue, rfl⟩ rel.kept
  | @drain p q Q h pc queue inst freed rep =>
    have hkept := (hi.drain_kept queue freed).1
    refine hr.moved p (fun p' hp => ?_) (fun p' _ q' _ hv => hv.kept hkept) ?_
    · simp only [MsgSt.setPc, ne_eq, hp, not_false_eq_true, update_of_ne]
      exact woken_wakeup _ q.page p'
    · intro q' hq'
      have hqq : q = q' := by simpa [MsgSt.setPc, MsgPc.ref] using hq'
      subst hqq
      exact QueueRef.Valid.kept ⟨Q, queue, inst⟩ hkept
  | @free p q Q pc queue inst =>
    refine hr.moved p (fun p' hp => .inl ?_) (fun p' hp q' hq' hv => ?_) ?_
    · simp [MsgSt.ret, MsgSt.setPc, hp]
    · obtain ⟨R, hR, hRi⟩ := hv
      have hne := alone p q rfl pc p' hp q' hq'
      exact ⟨R, by simpa [MsgSt.ret, MsgSt.setPc, hne] using hR, hRi⟩
    · simp [MsgSt.ret, MsgSt.setPc, MsgPc.ref]
  | @env act a c act_eq node queue node' queue' =>
    intro p q hq
    obtain ⟨Q, hQ, hinst⟩ := hr p q hq
    have hqa : q.page ≠ a := by
      rintro rfl
      simp [queueAt, queue] at hQ
    exact ⟨Q, by simpa [hqa] using hQ, hinst⟩

/-- The message that a process has yet to put on a page was given before the step, or by it. -/
theorem Outcome.sendCall_old (h : Outcome s ql nl act s' ql' nl') {d : SendCall} (hd : (s'.pc p).sendCall = some d) :
    (s.pc p).sendCall = some d ∨ act.sendCall = some d := by
  have hupd : ∀ {r : P} {c : MsgPc A}, c.sendCall = none → (update s.pc r c p).sendCall = some d →
      (s.pc p).sendCall = some d ∨ act.sendCall = some d := by
    intro r c hc hd
    by_cases hp : p = r
    · subst hp
      rw [update_self, hc] at hd
      cases hd
    · rw [update_of_ne hp] at hd
      exact .inl hd
  have hwoken : ∀ {t : MsgSt P A} {a : A} {r : P} {c : MsgPc A}, t.pc = s.pc → c.sendCall = none →
      (update (t.wakeup a).pc r c p).sendCall = some d → (s.pc p).sendCall = some d ∨ act.sendCall = some d := by
    intro t a r c ht hc hd
    by_cases hp : p = r
    · subst hp
      rw [update_self, hc] at hd
      cases hd
    · rw [update_of_ne hp, (woken_wakeup t a p).sendCall, ht] at hd
      exact .inl hd
  cases h with
  | quiet page listHead insts nextId fault pc refs calls log mute => exact (calls p).1 d hd
  | create k pc free | fill pc free | free pc queue inst => exact hupd rfl hd
  | append pc queue inst rel rep | drain pc queue inst freed rep => exact hwoken rfl rfl hd
  | unlink pc queue inst split node wanted first rel rep | deliver pc node event | unlist pc split queue rel rep =>
    exact hupd rfl hd
  | env act_eq node queue node' queue' => exact .inl hd

/-- Every outcome of a step that sends no message that is too long leaves none to send. -/
theorem MsgSt.Sized.outcome (hs : s.Sized) (hfits : ∀ d, act.sendCall = some d → d.msgsz ≤ NODEROOM)
    (h : Outcome s ql nl act s' ql' nl') : s'.Sized := by
  intro p d hd
  rcases h.sendCall_old hd with hd | hd
  · exact hs p d hd
  · exact hfits d hd

/-- Every outcome of a step that keeps queues in place while they are in use leaves the run safe. -/
theorem SafeInv.outcome (hs : SafeInv s) (hi : QueueInv s ql nl) (hok : LifetimeOk s act)
    (h : Outcome s ql nl act s' ql' nl') : SafeInv s' where
  noFault := h.fault_eq.trans hs.noFault
  refs := hs.refs.outcome hi hok.alone h
  sized := hs.sized.outcome hok.fits h

end Safe

section Search

/-- What a pointer leads to is the queue it was taken for. -/
theorem queueAt_of_deref {s : MsgSt P A} (hd : s.deref q = some Q) : queueAt s.page q.page = some Q ∧ Q.inst = q.inst := by
  simpa [MsgSt.deref, Option.filter_eq_some_iff] using hd

variable {s : MsgSt P A} {ql : List A} {nl : A → List A} (hi : QueueInv s ql nl)

include hi

variable [Fintype A]

/-- The search of the list finds the first queue that meets the test, or that there is none. -/
theorem QueueInv.seekQueue (test : MsgQueue A → Bool) :
    (∃ l₁ a l₂ Q, ql = l₁ ++ a :: l₂ ∧ queueAt s.page a = some Q ∧ test Q = true ∧
      seekQueue s.page test s.listHead = .found l₁.getLast? a) ∨
    ((∀ a ∈ ql, ∀ Q, queueAt s.page a = some Q → test Q = false) ∧ seekQueue s.page test s.listHead = .absent) := by
  have hlen : ql.length < Fintype.card A + 1 := Nat.lt_succ_of_le hi.heap.list.length_le_card
  rcases hi.heap.list.seek_cases (fun a => (queueAt s.page a).any test) none hlen with
    ⟨l₁, a, l₂, hl, -, ha, heq⟩ | ⟨hnot, heq⟩
  · obtain ⟨Q, hQ⟩ := hi.heap.queueAt_of_mem (a := a) (by simp [hl])
    refine .inl ⟨l₁, a, l₂, Q, hl, hQ, by simpa [hQ] using ha, ?_⟩
    rw [OsLab.seekQueue, heq, Option.or_none]
  · refine .inr ⟨fun a ha Q hQ => by simpa [hQ] using hnot a ha, ?_⟩
    rw [OsLab.seekQueue, heq]

/-- The search of a queue finds the first node that the receiver wants, or that there is none. -/
theorem QueueInv.seekNode (hQ : queueAt s.page a = some Q) (t : Int) :
    (∃ l₁ f l₂ n, nl a = l₁ ++ f :: l₂ ∧ nodeAt s.page f = some n ∧ (t = 0 ∨ n.msgtyp = t) ∧
      (∀ g ∈ l₁, ∀ m, nodeAt s.page g = some m → ¬(t = 0 ∨ m.msgtyp = t)) ∧
      seekNode s.page t Q.head = .found l₁.getLast? f) ∨
    ((∀ g ∈ nl a, ∀ m, nodeAt s.page g = some m → ¬(t = 0 ∨ m.msgtyp = t)) ∧ seekNode s.page t Q.head = .absent) := by
  have hl := hi.heap.nodes hQ
  have hlen : (nl a).length < Fintype.card A + 1 := Nat.lt_succ_of_le hl.length_le_card
  have htest : ∀ {l : List A}, (∀ g ∈ l, (t == 0 || (nodeAt s.page g).any (·.msgtyp == t)) = false) →
      ∀ g ∈ l, ∀ m, nodeAt s.page g = some m → ¬(t = 0 ∨ m.msgtyp = t) := by
    intro l hnot g hg m hm
    simpa [hm] using hnot g hg
  rcases hl.seek_cases (fun a => t == 0 || (nodeAt s.page a).any (·.msgtyp == t)) none hlen with
    ⟨l₁, f, l₂, hsplit, hnot, hf, heq⟩ | ⟨hnot, heq⟩
  · obtain ⟨n, hn, -⟩ := hi.heap.nodeAt_of_mem hQ (f := f) (by simp [hsplit])
    refine .inl ⟨l₁, f, l₂, n, hsplit, hn, by simpa [hn] using hf, htest hnot, ?_⟩
    rw [OsLab.seekNode, heq, Option.or_none]
  · exact .inr ⟨htest hnot, heq⟩

end Search

section Quiet

theorem CallsFrom.refl (act : MsgAct P A) (c : MsgPc A) : CallsFrom act c c := ⟨fun _ h => .inl h, fun _ h => .inl h⟩

variable {s : MsgSt P A} {ql : List A} {nl : A → List A}

/-- A place with a pointer to a queue on the page `a`, and nothing in hand. -/
theorem PlaceOk.refTo {c : MsgPc A} (hQ : queueAt s.page a = some Q) (hi : QueueInv s ql nl) (href : c.ref = some (s.refTo a))
    (hhand : c.hand = none) (hrem : c.removal = none) : PlaceOk s.page s.insts ql nl c := by
  constructor
  case old =>
    intro q hq
    rw [href] at hq
    cases hq
    simpa [MsgSt.refTo, hQ] using hi.heap.inst_lt hQ
  case unlisted => simp [hrem]
  case hand => simp [hhand]
  case loose => simp [hhand]
  case filled =>
    rintro q f d rfl
    simp [MsgPc.hand] at hhand

/-- A pointer is right when it is taken. -/
theorem valid_refTo (hQ : queueAt s.page a = some Q) : (s.refTo a).Valid s.page :=
  ⟨Q, hQ, by simp [MsgSt.refTo, hQ]⟩

variable [DecidableEq P] [DecidableEq A]

/-- The return of a call that has no node in its hands. -/
theorem Outcome.ret {act : MsgAct P A} {r : Int} (hp : (s.pc p).hand = none) (hr : r ≤ 0 ∨ ∃ a Q, queueAt s.page a = some Q ∧ r = Q.id)
    (mute : Mute s (s.ret p r) nl act) : Outcome s ql nl act (s.ret p r) ql nl := by
  refine .quiet rfl rfl rfl rfl rfl (fun p' => ?_) (fun p' q => ?_) (fun p' => ?_)
    ⟨[.ret p r], rfl, by simpa [MsgEvent.IsRet] using hr⟩ mute <;>
    simp only [MsgSt.ret, MsgSt.setPc]
  · by_cases hpp : p' = p
    · subst hpp
      rw [update_self]
      exact .inr ⟨hp, rfl, .user⟩
    · exact .inl (update_of_ne hpp _ _)
  · by_cases hpp : p' = p
    · subst hpp
      simp [MsgPc.ref]
    · rw [update_of_ne hpp]
      exact .inl
  · by_cases hpp : p' = p
    · subst hpp
      simp [CallsFrom, MsgPc.sendCall, MsgPc.recvCall]
    · rw [update_of_ne hpp]
      exact .refl _ _

/-- A process with no node in its hands goes on to a place that is right. -/
theorem Outcome.goto {c : MsgPc A} {act : MsgAct P A} (hp : (s.pc p).hand = none) (hc : c.hand = none)
    (hok : PlaceOk s.page s.insts ql nl c) (refs : ∀ q, c.ref = some q → (s.pc p).ref = some q ∨ q.Valid s.page)
    (calls : CallsFrom act (s.pc p) c) (mute : Mute s (s.setPc p c) nl act) : Outcome s ql nl act (s.setPc p c) ql nl := by
  refine .quiet rfl rfl rfl rfl rfl (fun p' => ?_) (fun p' q => ?_) (fun p' => ?_) ⟨[], by simp [MsgSt.setPc], by simp⟩ mute <;>
    simp only [MsgSt.setPc]
  · by_cases hpp : p' = p
    · subst hpp
      rw [update_self]
      exact .inr ⟨hp, hc, hok⟩
    · exact .inl (update_of_ne hpp _ _)
  · by_cases hpp : p' = p
    · subst hpp
      rw [update_self]
      exact refs q
    · rw [update_of_ne hpp]
      exact .inl
  · by_cases hpp : p' = p
    · subst hpp
      rwa [update_self]
    · rw [update_of_ne hpp]
      exact .refl _ _

end Quiet

section Step

variable [DecidableEq P] [DecidableEq A] {s s' : MsgSt P A} {ql : List A} {nl : A → List A} (hi : QueueInv s ql nl)

include hi

omit hi in
theorem outcome_getId (hp : s.pc p = .gotten q) (hd : s.deref q = some Q) : Outcome s ql nl (.getId p) (msggetId s p q) ql nl := by
  rw [msggetId, hd]
  exact .ret (by rw [hp]; rfl) (.inr ⟨q.page, Q, (queueAt_of_deref hd).1, rfl⟩) trivial

omit hi in
/-- A node is filled, or the text does not fit and the run ends. -/
theorem outcome_fill {c : SendCall} {page : Option A} {junk : Nat → UInt8} (hp : s.pc p = .sending q c)
    (h : msgsndFill s p q c page junk = some s') :
    Outcome s ql nl (.sndAlloc p page junk) s' ql nl ∨ (∃ f, s' = s.fail f) ∧ NODEROOM < c.msgsz := by
  unfold msgsndFill at h
  cases page with
  | none =>
    cases h
    exact .inl (.ret (by rw [hp]; rfl) (.inl (by decide)) trivial)
  | some a =>
    cases hfree : s.page a with
    | free =>
      simp only [hfree] at h
      split at h
      · cases h
        exact .inr ⟨⟨_, rfl⟩, ‹_›⟩
      · cases h
        exact .inl (.fill hp hfree)
    | _ => simp [hfree] at h

/-- The message goes behind the others. -/
theorem QueueInv.outcome_append {c : SendCall} (hp : s.pc p = .appending q f c) (hd : s.deref q = some Q) :
    ∃ nl', Outcome s ql nl (.sndAppend p) (msgsndLink s p q f c) ql nl' := by
  obtain ⟨hQ, hinst⟩ := queueAt_of_deref hd
  obtain ⟨junk, hf⟩ := (hi.pcs p).filled hp
  have hloose : f ∉ nl q.page := (hi.pcs p).loose (by rw [hp]; rfl) hQ
  obtain ⟨h, hd', tl, hok, hrel, hrep⟩ := hi.heap.append hQ hf rfl hinst.symm hloose
  have hout := Outcome.append hp hQ hinst hrel hrep
  refine ⟨update nl q.page (nl q.page ++ [f]), ?_⟩
  rw [msgsndLink, hd]
  simp only [hok]
  exact hout

theorem QueueInv.outcome_deliver {c : RecvCall} (hp : s.pc p = .delivering f c) (beyond : Nat → UInt8) :
    Outcome s ql nl (.deliver p beyond) (msgrcvDeliver s p f c beyond) ql nl := by
  obtain ⟨n, hn⟩ := (hi.pcs p).hand (f := f) (by rw [hp]; rfl)
  rw [msgrcvDeliver]
  simp only [hn]
  split
  · rename_i harg
    exact .deliver hp hn (by rw [harg])
  · rename_i addr harg
    exact .deliver hp hn (by rw [harg])

omit hi in
theorem outcome_free (hp : s.pc p = .freeing q) (hd : s.deref q = some Q) : Outcome s ql nl (.ctlFree p) (msgctlFree s p q) ql nl := by
  obtain ⟨hQ, hinst⟩ := queueAt_of_deref hd
  rw [msgctlFree, hd]
  exact .free hp hQ hinst

variable [Fintype A]

omit [DecidableEq A] in
/-- The lookup by id fails, or finds a queue of the list. -/
theorem QueueInv.lookup (p : P) (msqid : Int) (found : Option A → A → MsgSt P A) :
    s.lookup p msqid found = s.ret p (-1) ∨
    ∃ l₁ a l₂ Q, ql = l₁ ++ a :: l₂ ∧ queueAt s.page a = some Q ∧ s.lookup p msqid found = found l₁.getLast? a := by
  rcases hi.seekQueue (·.id == msqid) with ⟨l₁, a, l₂, Q, hl, hQ, -, heq⟩ | ⟨-, heq⟩
  · exact .inr ⟨l₁, a, l₂, Q, hl, hQ, by rw [MsgSt.lookup, heq]⟩
  · exact .inl (by rw [MsgSt.lookup, heq])

theorem QueueInv.outcome_get {key msgflg : Arg} {page : Option A} (hp : s.pc p = .user) (h : sysMsgget s p key msgflg page = some s') :
    ∃ ql' nl', Outcome s ql nl (.get p key msgflg page) s' ql' nl' := by
  have hhand : (s.pc p).hand = none := by
    rw [hp]
    rfl
  have hfail : ∀ {t}, some (s.ret p (-1)) = some t → ∃ ql' nl', Outcome s ql nl (.get p key msgflg page) t ql' nl' := by
    rintro t ⟨⟩
    exact ⟨ql, nl, .ret hhand (.inl (by decide)) trivial⟩
  unfold sysMsgget at h
  cases key with
  | none => exact hfail h
  | some key =>
    cases msgflg with
    | none => exact hfail h
    | some msgflg =>
      rcases hi.seekQueue (·.key == key) with ⟨l₁, a, l₂, Q, -, hQ, -, heq⟩ | ⟨-, heq⟩
      · simp only [heq, Option.some.injEq] at h
        subst h
        have hok : PlaceOk s.page s.insts ql nl (.gotten (s.refTo a)) := .refTo hQ hi rfl rfl rfl
        refine ⟨ql, nl, .goto hhand rfl hok ?_ (by simp [CallsFrom, MsgPc.sendCall, MsgPc.recvCall]) trivial⟩
        rintro q ⟨⟩
        exact .inr (valid_refTo hQ)
      · simp only [heq] at h
        split at h
        · exact hfail h
        · cases page with
          | none => exact hfail h
          | some a =>
            cases hfree : s.page a with
            | free =>
              simp only [hfree, Option.some.injEq] at h
              subst h
              exact ⟨_, _, .create key hp hfree⟩
            | _ => simp [hfree] at h

theorem QueueInv.outcome_snd (hp : s.pc p = .user) (msqid msgp msgsz msgflg : Arg) (sz : Nat) (typ : Int) (text : Nat → UInt8) :
    Outcome s ql nl (.snd p msqid msgp msgsz msgflg sz typ text) (sysMsgsnd s p msqid msgp msgsz msgflg sz typ text) ql nl := by
  have hhand : (s.pc p).hand = none := by
    rw [hp]
    rfl
  unfold sysMsgsnd
  split
  · rename_i msqid n flg
    split
    · exact .ret hhand (.inl (by decide)) trivial
    · rcases hi.lookup p msqid (fun _ a => s.setPc p (.sending (s.refTo a) ⟨n, typ, text⟩)) with
        heq | ⟨l₁, a, l₂, Q, -, hQ, heq⟩
      · rw [heq]
        exact .ret hhand (.inl (by decide)) trivial
      · rw [heq]
        refine .goto hhand rfl (.refTo hQ hi rfl rfl rfl) ?_ ?_ trivial
        · rintro q ⟨⟩
          exact .inr (valid_refTo hQ)
        · simp [CallsFrom, MsgPc.sendCall, MsgPc.recvCall, MsgAct.sendCall]
  · exact .ret hhand (.inl (by decide)) trivial

theorem QueueInv.outcome_rcv (hp : s.pc p = .user) (msqid msgp msgsz msgtyp msgflg : Arg) (sz : Nat) :
    Outcome s ql nl (.rcv p msqid msgp msgsz msgtyp msgflg sz) (sysMsgrcv s p msqid msgp msgsz msgtyp msgflg sz) ql nl := by
  have hhand : (s.pc p).hand = none := by
    rw [hp]
    rfl
  unfold sysMsgrcv
  split
  · rename_i msqid n t flg
    rcases hi.lookup p msqid (fun _ a => s.setPc p (.receiving (s.refTo a) ⟨msgp, n, t, flg, sz⟩)) with
      heq | ⟨l₁, a, l₂, Q, -, hQ, heq⟩
    · rw [heq]
      exact .ret hhand (.inl (by decide)) trivial
    · rw [heq]
      refine .goto hhand rfl (.refTo hQ hi rfl rfl rfl) ?_ ?_ trivial
      · rintro q ⟨⟩
        exact .inr (valid_refTo hQ)
      · simp [CallsFrom, MsgPc.sendCall, MsgPc.recvCall, MsgAct.recvCall]
  · exact .ret hhand (.inl (by decide)) trivial

/-- The first message of the type is taken, or none is there. -/
theorem QueueInv.outcome_scan {c : RecvCall} (hp : s.pc p = .receiving q c) (hd : s.deref q = some Q) :
    ∃ nl', Outcome s ql nl (.rcvScan p) (msgrcvScan s p q c) ql nl' := by
  have hhand : (s.pc p).hand = none := by
    rw [hp]
    rfl
  obtain ⟨hQ, hinst⟩ := queueAt_of_deref hd
  rw [msgrcvScan, hd]
  rcases hi.seekNode hQ c.msgtyp with ⟨l₁, f, l₂, n, hsplit, hn, hw, hfirst, heq⟩ | ⟨hnone, heq⟩
  · obtain ⟨hd', tl, hrel, hrep⟩ := hi.heap.unlink hQ hsplit hn
    simp only [heq, hn]
    exact ⟨_, .unlink hp hQ hinst hsplit hn hw hfirst hrel hrep⟩
  · have hmute : ∀ t, Mute s t nl (.rcvScan p) := by
      intro t q' c' hp'
      rw [hp] at hp'
      cases hp'
      exact hnone
    refine ⟨nl, ?_⟩
    simp only [heq]
    split
    · exact .ret hhand (.inl (by decide)) (hmute _)
    · split
      · exact .ret hhand (.inl (by decide)) (hmute _)
      · refine .goto hhand rfl ?_ ?_ ?_ (hmute _)
        · constructor
          case old =>
            intro q' hq'
            exact (hi.pcs p).old (by rw [hp]; exact hq')
          all_goals simp [MsgPc.removal, MsgPc.hand]
        · rintro q' ⟨⟩
          exact .inl (by rw [hp]; rfl)
        · simp [CallsFrom, hp, MsgPc.sendCall, MsgPc.recvCall]

/-- A queue is taken off the list. -/
theorem QueueInv.outcome_unlist (hp : s.pc p = .user) {l₁ l₂ : List A} (hl : ql = l₁ ++ a :: l₂) (hQ : queueAt s.page a = some Q)
    (msqid cmd : Arg) :
    Outcome s ql nl (.ctl p msqid cmd) ((msgctlUnlink s l₁.getLast? Q.next).setPc p (.removing ⟨a, Q.inst⟩)) (l₁ ++ l₂) nl := by
  cases hprev : l₁.getLast? with
  | none =>
    obtain rfl := List.getLast?_eq_none_iff.mp hprev
    exact .unlist hp hl hQ (Relisted.refl _) (hi.heap.unlist_first hl hQ)
  | some b =>
    obtain ⟨hrel, hrep⟩ := hi.heap.unlist hl hQ hprev
    exact .unlist hp hl hQ hrel hrep

/-- The queue is taken out of the list. -/
theorem QueueInv.outcome_ctl (hp : s.pc p = .user) (msqid cmd : Arg) :
    ∃ ql', Outcome s ql nl (.ctl p msqid cmd) (sysMsgctl s p msqid cmd) ql' nl := by
  have hret : Outcome s ql nl (.ctl p msqid cmd) (s.ret p (-1)) ql nl := by
    refine .ret (by rw [hp]; rfl) (.inl (by decide)) fun q => ?_
    simp [MsgSt.ret, MsgSt.setPc]
  unfold sysMsgctl
  split
  · rename_i msqid cmd
    split
    · exact ⟨ql, hret⟩
    · rcases hi.lookup p msqid (fun prev a =>
          (msgctlUnlink s prev ((nextQueue s.page a).getD none)).setPc p (.removing (s.refTo a))) with
        heq | ⟨l₁, a, l₂, Q, hl, hQ, heq⟩
      · exact ⟨ql, heq ▸ hret⟩
      · have hnext : (nextQueue s.page a).getD none = Q.next := by simp [nextQueue, hQ]
        have href : s.refTo a = ⟨a, Q.inst⟩ := by simp [MsgSt.refTo, hQ]
        refine ⟨l₁ ++ l₂, ?_⟩
        rw [heq, hnext, href]
        exact hi.outcome_unlist hp hl hQ _ _
  · exact ⟨ql, hret⟩

/-- The nodes of a queue are freed and its sleepers woken: the loop goes through them all. -/
theorem QueueInv.outcome_drain (hp : s.pc p = .removing q) (hd : s.deref q = some Q) :
    ∃ h, msgctlDrain s p q = (({ s with page := h } : MsgSt P A).wakeup q.page).setPc p (.freeing q) ∧
      Outcome s ql nl (.ctlDrain p) (msgctlDrain s p q) ql (update nl q.page []) := by
  obtain ⟨hQ, hinst⟩ := queueAt_of_deref hd
  obtain ⟨h, hok, hfreed, hrep⟩ := hi.heap.drain hQ
  refine ⟨update h q.page (.queue { Q with head := none, tail := none }), ?_, ?_⟩
  · simp only [msgctlDrain, hd, hok]
  · rw [msgctlDrain, hd]
    simp only [hok]
    exact .drain hp hQ hinst hfreed hrep

theorem QueueInv.outcome_wake {c : RecvCall} (hp : s.pc p = .asleep q c) :
    Outcome s ql nl (.kill p) ({ s with killed := update s.killed p true }.setPc p (.receiving q c)) ql nl := by
  refine .quiet rfl rfl rfl rfl rfl (fun p' => ?_) (fun p' q' => ?_) (fun p' => ?_) ⟨[], by simp [MsgSt.setPc], by simp⟩ trivial <;>
    simp only [MsgSt.setPc]
  · by_cases hpp : p' = p
    · subst hpp
      rw [update_self, hp]
      exact .inr ⟨rfl, rfl, (hp ▸ hi.pcs p').wake⟩
    · exact .inl (update_of_ne hpp _ _)
  · by_cases hpp : p' = p
    · subst hpp
      rw [update_self, hp]
      exact .inl
    · rw [update_of_ne hpp]
      exact .inl
  · by_cases hpp : p' = p
    · subst hpp
      simp [CallsFrom, hp, MsgPc.sendCall, MsgPc.recvCall]
    · rw [update_of_ne hpp]
      exact .refl _ _

omit hi in
/-- A step that follows a pointer of its process stops the run when the queue is gone. -/
theorem stray_of_deref (hq : (s.pc p).ref = some q) (hd : s.deref q = none) (f : Fault) :
    (∃ f', s.fail f = s.fail f') ∧ Stray s := ⟨⟨f, rfl⟩, .inl ⟨p, q, hq, hd⟩⟩

/-- What a step does, in a state of the invariant. -/
theorem QueueInv.step_outcome {act : MsgAct P A} (h : msgStep s act = some s') :
    (∃ ql' nl', Outcome s ql nl act s' ql' nl') ∨ (∃ f, s' = s.fail f) ∧ Stray s := by
  cases (msgMoves_of_msgStep h).2 with
  | get hp hget => exact .inl (hi.outcome_get hp hget)
  | @getId p q hp =>
    cases hd : s.deref q with
    | some Q => exact .inl ⟨ql, nl, outcome_getId hp hd⟩
    | none =>
      simp only [msggetId, hd]
      exact .inr (stray_of_deref (p := p) (by rw [hp]; rfl) hd _)
  | snd hp => exact .inl ⟨ql, nl, hi.outcome_snd hp _ _ _ _ _ _ _⟩
  | @sndAlloc p q c _ _ _ hp hfill =>
    rcases outcome_fill hp hfill with hout | ⟨hf, hlt⟩
    · exact .inl ⟨ql, nl, hout⟩
    · exact .inr ⟨hf, .inr ⟨p, c, by rw [hp]; rfl, hlt⟩⟩
  | @sndAppend p q f c hp =>
    cases hd : s.deref q with
    | some Q => exact .inl ⟨ql, hi.outcome_append hp hd⟩
    | none =>
      simp only [msgsndLink, hd]
      exact .inr (stray_of_deref (p := p) (by rw [hp]; rfl) hd _)
  | rcv hp => exact .inl ⟨ql, nl, hi.outcome_rcv hp _ _ _ _ _ _⟩
  | @rcvScan p q c hp =>
    cases hd : s.deref q with
    | some Q => exact .inl ⟨ql, hi.outcome_scan hp hd⟩
    | none =>
      simp only [msgrcvScan, hd]
      exact .inr (stray_of_deref (p := p) (by rw [hp]; rfl) hd _)
  | deliver hp => exact .inl ⟨ql, nl, hi.outcome_deliver hp _⟩
  | ctl hp =>
    obtain ⟨ql', hout⟩ := hi.outcome_ctl hp _ _
    exact .inl ⟨ql', nl, hout⟩
  | @ctlDrain p q hp =>
    cases hd : s.deref q with
    | some Q =>
      obtain ⟨h, -, hout⟩ := hi.outcome_drain hp hd
      exact .inl ⟨ql, _, hout⟩
    | none =>
      simp only [msgctlDrain, hd]
      exact .inr (stray_of_deref (p := p) (by rw [hp]; rfl) hd _)
  | @ctlFree p q hp =>
    cases hd : s.deref q with
    | some Q => exact .inl ⟨ql, nl, outcome_free hp hd⟩
    | none =>
      simp only [msgctlFree, hd]
      exact .inr (stray_of_deref (p := p) (by rw [hp]; rfl) hd _)
  | wake hp => exact .inl ⟨ql, nl, hi.outcome_wake hp⟩
  | kill =>
    exact .inl ⟨ql, nl, .quiet rfl rfl rfl rfl rfl (fun _ => .inl rfl) (fun _ _ => .inl) (fun _ => .refl _ _)
      ⟨[], by simp, by simp⟩ trivial⟩
  | take ha => exact .inl ⟨ql, nl, .env (.inl rfl) (by simp [ha]) (by simp [ha]) rfl rfl⟩
  | give ha => exact .inl ⟨ql, nl, .env (.inr rfl) (by simp [ha]) (by simp [ha]) rfl rfl⟩

/-- What a step of a safe run does. -/
theorem QueueInv.safe_outcome {act : MsgAct P A} (hs : SafeInv s) (h : msgStep s act = some s') :
    ∃ ql' nl', Outcome s ql nl act s' ql' nl' := by
  rcases hi.step_outcome h with hout | ⟨-, hstray⟩
  · exact hout
  · exact absurd hstray hs.not_stray

/-- A run that has been stopped keeps the invariant. -/
theorem QueueInv.fail (f : Fault) : QueueInv (s.fail f) ql nl := ⟨hi.heap, hi.pcs, hi.hand_inj, hi.kept⟩

end Step

variable [DecidableEq P] [DecidableEq A] [Fintype A] {s : MsgSt P A}

/-- The invariant holds of every state of every run. -/
theorem queueInv_of_reachable (hs : msgSys.Reachable s) : ∃ ql nl, QueueInv s ql nl := by
  refine Sys.Reach.invariant (I := fun s => ∃ ql nl, QueueInv s ql nl) ?_ ?_ hs
  · exact fun s hb => ⟨[], fun _ => [], .boot hb⟩
  · rintro s a s' ⟨ql, nl, hi⟩ - hst
    rcases hi.step_outcome hst with ⟨ql', nl', hout⟩ | ⟨⟨f, rfl⟩, -⟩
    · exact ⟨ql', nl', hi.outcome hout⟩
    · exact ⟨ql, nl, hi.fail f⟩

/-- A run that keeps queues in place while they are in use is safe. -/
theorem safeInv_of_reach (hs : msgSys.Reach LifetimeOk s) : SafeInv s := by
  refine Sys.Reach.invariant_of (J := fun s => ∃ ql nl, QueueInv s ql nl) (I := SafeInv)
    (fun s hs => queueInv_of_reachable (hs.mono fun _ _ _ => trivial)) (fun s hb => .boot hb) ?_ hs
  rintro s a s' ⟨ql, nl, hi⟩ hsafe hok hst
  obtain ⟨ql', nl', hout⟩ := hi.safe_outcome hsafe hst
  exact hsafe.outcome hi hok hout

end OsLab
