import OsLab.Lemmas.QueueHeap

/-!
# The invariant of the message queues

`QueueInv s ql nl`: the pages represent the lists `ql` and `nl`, and every node is in the list of its queue or in the hands of one
process. It holds of every state: a process that has a pointer to a queue that is gone can only stop the run with it.

`Outcome` says once what a step does to the state and to the lists, from a state of the invariant, and every outcome keeps the
invariant (`QueueInv.outcome`). `SafeInv` says that no such pointer is left; an outcome keeps it when a queue is freed only while no
other process has a pointer to it (`SafeInv.outcome`).
-/

namespace OsLab

open Function (update update_self update_of_ne)

variable {P A : Type*} {q : QueueRef A} {a f : A} {l : List A} {insts : Nat} {Q : MsgQueue A} {p : P}

/-- The queue that a process is removing. -/
def MsgPc.removal : MsgPc A → Option (QueueRef A)
  | .removing q => some q
  | .freeing q => some q
  | _ => none

theorem MsgPc.ref_of_removal {c : MsgPc A} (h : c.removal = some q) : c.ref = some q := by
  cases c <;> simp_all [removal, ref]

/-- The queue that a pointer was taken for is there. -/
def QueueRef.Valid (h : A → Page A) (q : QueueRef A) : Prop := ∃ Q, queueAt h q.page = some Q ∧ Q.inst = q.inst

/-- Every queue of `h` is still there in `h'`. -/
def QueuesKept (h h' : A → Page A) : Prop := ∀ b R, queueAt h b = some R → ∃ S, queueAt h' b = some S ∧ S.inst = R.inst

/-- A valid pointer stays valid while the queues are kept. -/
theorem QueueRef.Valid.kept {h h' : A → Page A} (hv : q.Valid h) (hk : QueuesKept h h') : q.Valid h' := by
  obtain ⟨Q, hQ, hinst⟩ := hv
  obtain ⟨S, hS, hSi⟩ := hk _ _ hQ
  exact ⟨S, hS, hSi.trans hinst⟩

theorem QueuesKept.of_eq {h h' : A → Page A} (hq : ∀ b, queueAt h' b = queueAt h b) : QueuesKept h h' := by
  intro b R hR
  exact ⟨R, (hq b).trans hR, rfl⟩

/-- A change of the nodes keeps the queues. -/
theorem Relinked.kept {h h' : A → Page A} {hd tl : Option A} (rel : Relinked h h' a hd tl l) : QueuesKept h h' := by
  intro b R hR
  obtain ⟨S, hS, -, hSi, -⟩ := rel.queue_some hR
  exact ⟨S, hS, hSi⟩

theorem Relinked.kept_back {h h' : A → Page A} {hd tl : Option A} (rel : Relinked h h' a hd tl l) : QueuesKept h' h := by
  intro b R hR
  obtain ⟨S, hS, -, hSi, -⟩ := rel.queue_old hR
  exact ⟨S, hS, hSi.symm⟩

/-- So does a change of the list. -/
theorem Relisted.kept {h h' : A → Page A} (rel : Relisted h h') : QueuesKept h h' := by
  intro b R hR
  obtain ⟨S, hS, hb⟩ := rel.queue_some hR
  exact ⟨S, hS, (MsgQueue.of_body hb).2.2.2.2⟩

theorem Relisted.kept_back {h h' : A → Page A} (rel : Relisted h h') : QueuesKept h' h := by
  intro b R hR
  obtain ⟨S, hS, hb⟩ := rel.queue_old hR
  exact ⟨S, hS, (MsgQueue.of_body hb).2.2.2.2⟩

/-- What holds of the place of a process: the queue it points to has been created, the queue it removes is off the list, and the
node in its hands is there and in no queue. -/
structure PlaceOk (h : A → Page A) (insts : Nat) (ql : List A) (nl : A → List A) (c : MsgPc A) : Prop where
  old : ∀ {q}, c.ref = some q → q.inst < insts
  unlisted : ∀ {q}, c.removal = some q → q.Valid h → q.page ∉ ql
  hand : ∀ {f}, c.hand = some f → ∃ n, nodeAt h f = some n
  loose : ∀ {f a Q}, c.hand = some f → queueAt h a = some Q → f ∉ nl a
  filled : ∀ {q f d}, c = .appending q f d → ∃ junk, nodeAt h f = some (d.node q.inst junk)

theorem PlaceOk.user {h : A → Page A} {ql : List A} {nl : A → List A} : PlaceOk h insts ql nl .user := by
  constructor <;> simp [MsgPc.ref, MsgPc.removal, MsgPc.hand]

/-- A place stays right when the pages and lists that it is about do. -/
theorem PlaceOk.mono {h h' : A → Page A} {insts' : Nat} {ql ql' : List A} {nl nl' : A → List A} {c : MsgPc A}
    (hc : PlaceOk h insts ql nl c) (hle : insts ≤ insts') (hr : ∀ {q}, c.removal = some q → q.Valid h' → q.page ∉ ql')
    (hn : ∀ {f}, c.hand = some f → nodeAt h' f = nodeAt h f) (hl : ∀ {f a Q}, c.hand = some f → queueAt h' a = some Q → f ∉ nl' a) :
    PlaceOk h' insts' ql' nl' c where
  old hq := (hc.old hq).trans_le hle
  unlisted := hr
  hand hf := by
    rw [hn hf]
    exact hc.hand hf
  loose := hl
  filled hap := by
    subst hap
    rw [hn rfl]
    exact hc.filled rfl

/-- A place stays right when one queue gets another list of nodes, without the node in hand. -/
theorem PlaceOk.relinked [DecidableEq A] {h h' : A → Page A} {ql : List A} {nl : A → List A} {c : MsgPc A} {hd tl : Option A}
    (hc : PlaceOk h insts ql nl c) (rel : Relinked h h' a hd tl (nl a)) (hQ : queueAt h a = some Q)
    (hl : ∀ {f}, c.hand = some f → f ∉ l) : PlaceOk h' insts ql (update nl a l) c := by
  refine hc.mono le_rfl (fun hq hv => hc.unlisted hq (hv.kept rel.kept_back)) ?_ ?_
  · intro f hf
    exact rel.node_eq (hc.loose hf hQ)
  · intro f b R hf hR
    by_cases hb : b = a
    · subst hb
      rw [update_self]
      exact hl hf
    · rw [update_of_ne hb]
      exact hc.loose hf (rel.queue_eq hb ▸ hR)

/-- A sleeper made to scan again. -/
theorem PlaceOk.wake {h : A → Page A} {ql : List A} {nl : A → List A} {d : RecvCall} (hc : PlaceOk h insts ql nl (.asleep q d)) :
    PlaceOk h insts ql nl (.receiving q d) where
  old hq := hc.old hq
  unlisted := by simp [MsgPc.removal]
  hand := by simp [MsgPc.hand]
  loose := by simp [MsgPc.hand]
  filled := by simp

/-- The process is where it was, or has been woken. -/
def MsgPc.Woken (c c' : MsgPc A) : Prop := c' = c ∨ ∃ q d, c = .asleep q d ∧ c' = .receiving q d

theorem MsgPc.Woken.hand {c c' : MsgPc A} (hw : c.Woken c') : c'.hand = c.hand := by
  rcases hw with rfl | ⟨q, d, rfl, rfl⟩ <;> rfl

/-- A wakeup leaves everybody in order. -/
theorem PlaceOk.woken {h : A → Page A} {ql : List A} {nl : A → List A} {c c' : MsgPc A} (hc : PlaceOk h insts ql nl c) (hw : c.Woken c') :
    PlaceOk h insts ql nl c' := by
  rcases hw with rfl | ⟨q, d, rfl, rfl⟩
  · exact hc
  · exact hc.wake

/-- `wakeup` only wakes. -/
theorem woken_wakeup [DecidableEq A] (s : MsgSt P A) (a : A) (p : P) : (s.pc p).Woken ((s.wakeup a).pc p) := by
  cases hp : s.pc p with
  | asleep q c =>
    by_cases hq : q.page = a
    · exact .inr ⟨q, c, rfl, by simp [MsgSt.wakeup, hp, hq]⟩
    · exact .inl (by simp [MsgSt.wakeup, hp, hq])
  | _ => exact .inl (by simp [MsgSt.wakeup, hp])

/-- The pages, the places of the processes and the nodes in their hands. -/
structure QueueInv (s : MsgSt P A) (ql : List A) (nl : A → List A) : Prop where
  heap : HeapRep s.page s.listHead s.insts ql nl
  pcs : ∀ p, PlaceOk s.page s.insts ql nl (s.pc p)
  hand_inj : ∀ {p p' f}, (s.pc p).hand = some f → (s.pc p').hand = some f → p = p'
  kept : ∀ {f n}, nodeAt s.page f = some n →
    (∃ p, (s.pc p).hand = some f) ∨ ∀ {a Q}, queueAt s.page a = some Q → Q.inst = n.inst → f ∈ nl a

/-- A step of one process: the others are where they were, or woken, and their places are right for the new pages. -/
theorem QueueInv.moved {s s' : MsgSt P A} {ql ql' : List A} {nl nl' : A → List A} (hi : QueueInv s ql nl) (p : P)
    (heap : HeapRep s'.page s'.listHead s'.insts ql' nl')
    (others : ∀ p', p' ≠ p → (s.pc p').Woken (s'.pc p') ∧ PlaceOk s'.page s'.insts ql' nl' (s.pc p'))
    (own : PlaceOk s'.page s'.insts ql' nl' (s'.pc p))
    (mine : ∀ {f}, (s'.pc p).hand = some f → ∀ p', p' ≠ p → (s.pc p').hand ≠ some f)
    (kept : ∀ {f n}, nodeAt s'.page f = some n →
      (∃ p', (s'.pc p').hand = some f) ∨ ∀ {a Q}, queueAt s'.page a = some Q → Q.inst = n.inst → f ∈ nl' a) :
    QueueInv s' ql' nl' where
  heap := heap
  pcs p' := by
    by_cases hp : p' = p
    · exact hp ▸ own
    · exact (others p' hp).2.woken (others p' hp).1
  hand_inj {p₁ p₂ f} h₁ h₂ := by
    by_cases hp₁ : p₁ = p <;> by_cases hp₂ : p₂ = p
    · rw [hp₁, hp₂]
    · subst hp₁
      exact absurd ((others p₂ hp₂).1.hand ▸ h₂) (mine h₁ p₂ hp₂)
    · subst hp₂
      exact absurd ((others p₁ hp₁).1.hand ▸ h₁) (mine h₂ p₁ hp₁)
    · exact hi.hand_inj ((others p₁ hp₁).1.hand ▸ h₁) ((others p₂ hp₂).1.hand ▸ h₂)
  kept := kept

/-- What the log says that is neither a message sent nor one received: the return of a failure, of a success, or of the id of a queue
that is there. -/
def MsgEvent.IsRet (h : A → Page A) : MsgEvent P → Prop
  | .ret _ r => r ≤ 0 ∨ ∃ a Q, queueAt h a = some Q ∧ r = Q.id
  | _ => False

/-- The calls that a process is in were begun before the step, or by it. -/
def CallsFrom (act : MsgAct P A) (c c' : MsgPc A) : Prop :=
  (∀ d, c'.sendCall = some d → c.sendCall = some d ∨ act.sendCall = some d) ∧
    ∀ d, c'.recvCall = some d → c.recvCall = some d ∨ act.recvCall = some d

/-- The step is one that links no message, finds none to unlink, and takes no queue off the list. -/
def Mute (s s' : MsgSt P A) (nl : A → List A) : MsgAct P A → Prop
  | .sndAppend _ => False
  | .rcvScan p => ∀ q c, s.pc p = .receiving q c → ∀ f ∈ nl q.page, ∀ n, nodeAt s.page f = some n →
      ¬(c.msgtyp = 0 ∨ n.msgtyp = c.msgtyp)
  | .ctl p _ _ => ∀ q, s'.pc p ≠ .removing q
  | _ => True

section Outcome

variable [DecidableEq P] [DecidableEq A]

/-- What a step does in a state of the invariant: the state after it, and the lists. -/
inductive Outcome (s : MsgSt P A) (ql : List A) (nl : A → List A) :
    MsgAct P A → MsgSt P A → List A → (A → List A) → Prop
  /-- Processes move, and the pages stay. -/
  | quiet {a : MsgAct P A} {s' : MsgSt P A} (page : s'.page = s.page) (listHead : s'.listHead = s.listHead)
      (insts : s'.insts = s.insts) (nextId : s'.nextId = s.nextId) (fault : s'.fault = s.fault)
      (pc : ∀ p, s'.pc p = s.pc p ∨ (s.pc p).hand = none ∧ (s'.pc p).hand = none ∧ PlaceOk s.page s.insts ql nl (s'.pc p))
      (refs : ∀ p q, (s'.pc p).ref = some q → (s.pc p).ref = some q ∨ q.Valid s.page)
      (calls : ∀ p, CallsFrom a (s.pc p) (s'.pc p)) (log : ∃ l, s'.log = s.log ++ l ∧ ∀ e ∈ l, e.IsRet s.page)
      (mute : Mute s s' nl a) : Outcome s ql nl a s' ql nl
  /-- `sys_msgget` creates a queue. -/
  | create {p : P} {key msgflg : Arg} {a : A} (k : Int) (pc : s.pc p = .user) (free : s.page a = .free) :
      Outcome s ql nl (.get p key msgflg (some a))
        (({ s with page := update s.page a (.queue ⟨s.listHead, s.nextId, k, none, none, s.insts⟩),
                   listHead := some a, nextId := int32 (s.nextId + 1), insts := s.insts + 1 } : MsgSt P A).ret p s.nextId)
        (a :: ql) (update nl a [])
  /-- `sys_msgsnd` fills a node. -/
  | fill {p : P} {q : QueueRef A} {c : SendCall} {a : A} {junk : Nat → UInt8} (pc : s.pc p = .sending q c)
      (free : s.page a = .free) :
      Outcome s ql nl (.sndAlloc p (some a) junk)
        (({ s with page := update s.page a (.node (c.node q.inst junk)) } : MsgSt P A).setPc p (.appending q a c))
        ql nl
  /-- `sys_msgsnd` links its node at the end. -/
  | append {p : P} {q : QueueRef A} {f : A} {c : SendCall} {h : A → Page A} {hd tl : Option A} {Q : MsgQueue A}
      (pc : s.pc p = .appending q f c) (queue : queueAt s.page q.page = some Q) (inst : Q.inst = q.inst)
      (rel : Relinked s.page h q.page hd tl (nl q.page))
      (rep : HeapRep h s.listHead s.insts ql (update nl q.page (nl q.page ++ [f]))) :
      Outcome s ql nl (.sndAppend p)
        ((({ s with page := h, log := s.log ++ [.sent p q.inst c.msg] } : MsgSt P A).wakeup q.page).ret p 0)
        ql (update nl q.page (nl q.page ++ [f]))
  /-- `sys_msgrcv` unlinks the first node that it wants. -/
  | unlink {p : P} {q : QueueRef A} {c : RecvCall} {l₁ l₂ : List A} {f : A} {n : MsgNode A} {h : A → Page A}
      {hd tl : Option A} {Q : MsgQueue A} (pc : s.pc p = .receiving q c) (queue : queueAt s.page q.page = some Q)
      (inst : Q.inst = q.inst) (split : nl q.page = l₁ ++ f :: l₂) (node : nodeAt s.page f = some n)
      (wanted : c.msgtyp = 0 ∨ n.msgtyp = c.msgtyp)
      (first : ∀ g ∈ l₁, ∀ m, nodeAt s.page g = some m → ¬(c.msgtyp = 0 ∨ m.msgtyp = c.msgtyp))
      (rel : Relinked s.page h q.page hd tl (nl q.page))
      (rep : HeapRep h s.listHead s.insts ql (update nl q.page (l₁ ++ l₂))) :
      Outcome s ql nl (.rcvScan p)
        (({ s with page := h, log := s.log ++ [.took p q.inst c n.msg] } : MsgSt P A).setPc p (.delivering f c))
        ql (update nl q.page (l₁ ++ l₂))
  /-- `sys_msgrcv` copies its node out, if the buffer is the caller's, and frees it. -/
  | deliver {p : P} {f : A} {c : RecvCall} {n : MsgNode A} {beyond : Nat → UInt8} {e : MsgEvent P}
      (pc : s.pc p = .delivering f c) (node : nodeAt s.page f = some n)
      (event : e = match argptr c.sz c.msgp (int32 (LONGSIZE + copysz n.length c.msgsz)) with
        | none => .ret p (-1)
        | some addr =>
          .received p addr n.msgtyp (n.copied beyond (copysz n.length c.msgsz)) (copysz n.length c.msgsz)) :
      Outcome s ql nl (.deliver p beyond)
        { s with page := update s.page f .free, pc := update s.pc p .user, log := s.log ++ [e] } ql nl
  /-- `sys_msgctl` takes a queue off the list. -/
  | unlist {p : P} {msqid cmd : Arg} {a : A} {Q : MsgQueue A} {l₁ l₂ : List A} {h : A → Page A} {head : Option A}
      (pc : s.pc p = .user) (split : ql = l₁ ++ a :: l₂) (queue : queueAt s.page a = some Q) (rel : Relisted s.page h)
      (rep : HeapRep h head s.insts (l₁ ++ l₂) nl) :
      Outcome s ql nl (.ctl p msqid cmd)
        (({ s with page := h, listHead := head } : MsgSt P A).setPc p (.removing ⟨a, Q.inst⟩)) (l₁ ++ l₂) nl
  /-- `sys_msgctl` frees the nodes of the queue. -/
  | drain {p : P} {q : QueueRef A} {Q : MsgQueue A} {h : A → Page A} (pc : s.pc p = .removing q)
      (queue : queueAt s.page q.page = some Q) (inst : Q.inst = q.inst)
      (freed : ∀ x, h x = if x ∈ nl q.page then .free else s.page x)
      (rep : HeapRep (update h q.page (.queue { Q with head := none, tail := none })) s.listHead s.insts ql
        (update nl q.page [])) :
      Outcome s ql nl (.ctlDrain p)
        ((({ s with page := update h q.page (.queue { Q with head := none, tail := none }) } : MsgSt P A).wakeup
          q.page).setPc p (.freeing q)) ql (update nl q.page [])
  /-- `sys_msgctl` frees the queue. -/
  | free {p : P} {q : QueueRef A} {Q : MsgQueue A} (pc : s.pc p = .freeing q) (queue : queueAt s.page q.page = some Q)
      (inst : Q.inst = q.inst) :
      Outcome s ql nl (.ctlFree p) (({ s with page := update s.page q.page .free } : MsgSt P A).ret p 0) ql nl
  /-- Other parts of the kernel take a page or give it back. -/
  | env {act : MsgAct P A} {a : A} {c : Page A} (act_eq : act = .take a ∨ act = .give a) (node : (s.page a).node? = none)
      (queue : (s.page a).queue? = none) (node' : c.node? = none) (queue' : c.queue? = none) :
      Outcome s ql nl act { s with page := update s.page a c } ql nl

end Outcome

section Step

variable {s s' : MsgSt P A} {ql ql' : List A} {nl nl' : A → List A}

theorem QueueInv.boot (hb : s.Boot) : QueueInv s [] fun _ => [] := by
  have hq : ∀ a, queueAt s.page a = none := fun a => by rcases hb.page a with h | h <;> simp [queueAt, h]
  have hn : ∀ a, nodeAt s.page a = none := fun a => by rcases hb.page a with h | h <;> simp [nodeAt, h]
  constructor
  case heap => constructor <;> simp [hq, hn, hb.listHead]
  case pcs =>
    intro p
    rw [hb.pc p]
    exact PlaceOk.user
  all_goals simp [hb.pc, hn, MsgPc.hand]

variable [DecidableEq P] [DecidableEq A] (hi : QueueInv s ql nl)

include hi

omit [DecidableEq P] [DecidableEq A] in
/-- Processes move, and the pages stay. -/
theorem QueueInv.quiet (page : s'.page = s.page) (listHead : s'.listHead = s.listHead) (insts : s'.insts = s.insts)
    (pc : ∀ p, s'.pc p = s.pc p ∨ (s.pc p).hand = none ∧ (s'.pc p).hand = none ∧ PlaceOk s.page s.insts ql nl (s'.pc p)) :
    QueueInv s' ql nl := by
  have hhand : ∀ p, (s'.pc p).hand = (s.pc p).hand := by
    intro p
    rcases pc p with h | ⟨h, h', -⟩
    · rw [h]
    · rw [h, h']
  constructor
  case heap => rw [page, listHead, insts]; exact hi.heap
  case pcs =>
    intro p
    rw [page, insts]
    rcases pc p with h | ⟨-, -, h⟩
    · rw [h]
      exact hi.pcs p
    · exact h
  case hand_inj =>
    intro p p' f
    rw [hhand, hhand]
    exact hi.hand_inj
  case kept =>
    intro f n
    simp only [page, hhand]
    exact hi.kept

/-- `sys_msgget` creates a queue. -/
theorem QueueInv.create (k : Int) (pc : s.pc p = .user) (free : s.page a = .free) :
    QueueInv (({ s with page := update s.page a (.queue ⟨s.listHead, s.nextId, k, none, none, s.insts⟩),
                        listHead := some a, nextId := int32 (s.nextId + 1), insts := s.insts + 1 } : MsgSt P A).ret p s.nextId)
        (a :: ql) (update nl a []) := by
  have hna : nodeAt s.page a = none := by simp [nodeAt, free]
  have hqa : queueAt s.page a = none := by simp [queueAt, free]
  refine hi.moved p (hi.heap.create free s.nextId k) (fun p' hp => ⟨.inl ?_, (hi.pcs p').mono (Nat.le_succ _) ?_ ?_ ?_⟩) ?_ ?_ ?_ <;>
    try simp only [MsgSt.ret, MsgSt.setPc, update_self]
  · simp [hp]
  · -- the new queue is not the one that the process removes, which is older
    rintro q hq ⟨R, hR, hRi⟩
    have hold := (hi.pcs p').old (MsgPc.ref_of_removal hq)
    by_cases hqa' : q.page = a
    · simp only [queueAt_update, hqa', ↓reduceIte, queue?_queue, Option.some.injEq] at hR
      subst hR
      exact absurd hRi hold.ne'
    · simp only [queueAt_update, hqa', ↓reduceIte] at hR
      simpa [hqa'] using (hi.pcs p').unlisted hq ⟨R, hR, hRi⟩
  · intro f hf
    obtain ⟨n, hn⟩ := (hi.pcs p').hand hf
    grind
  · intro f b R hf hR
    have := @(hi.pcs p').loose f b R hf
    grind
  · exact .user
  · simp [MsgPc.hand]
  · intro f n hn
    have hfa : f ≠ a := by
      rintro rfl
      simp at hn
    simp only [nodeAt_update, hfa, ↓reduceIte] at hn
    rcases hi.kept hn with ⟨p', hp'⟩ | h
    · refine .inl ⟨p', ?_⟩
      have : p' ≠ p := by
        rintro rfl
        simp [pc, MsgPc.hand] at hp'
      simpa [this] using hp'
    · refine .inr fun {b R} hR hRi => ?_
      have hlt := hi.heap.node_lt hn
      by_cases hba : b = a
      · subst hba
        simp only [queueAt_update, ↓reduceIte, queue?_queue, Option.some.injEq] at hR
        subst hR
        simp at hRi
        omega
      · rw [update_of_ne hba]
        exact h (by simpa [hba] using hR) hRi

/-- `sys_msgsnd` fills a node. -/
theorem QueueInv.fill {c : SendCall} {junk : Nat → UInt8} (pc : s.pc p = .sending q c) (free : s.page a = .free) :
    QueueInv (({ s with page := update s.page a (.node (c.node q.inst junk)) } : MsgSt P A).setPc p
      (.appending q a c)) ql nl := by
  have hna : nodeAt s.page a = none := by simp [nodeAt, free]
  have hqa : queueAt s.page a = none := by simp [queueAt, free]
  have hold : q.inst < s.insts := (hi.pcs p).old (by rw [pc]; rfl)
  have hloose : ∀ {b R}, queueAt s.page b = some R → a ∉ nl b := fun hb ha => by
    obtain ⟨n, hn, -⟩ := hi.heap.nodeAt_of_mem hb ha
    simp [hna] at hn
  have hqueue : ∀ b, queueAt (update s.page a (.node (c.node q.inst junk))) b = queueAt s.page b := by
    intro b
    grind
  have hheap : HeapRep (update s.page a (.node (c.node q.inst junk))) s.listHead s.insts ql nl := by
    refine hi.heap.frame hqueue ?_ ?_
    · intro b R hR f hf
      have : f ≠ a := fun he => hloose hR (he ▸ hf)
      simp [this]
    · intro f n hn
      by_cases hfa : f = a
      · subst hfa
        simp only [nodeAt_update, ↓reduceIte, node?_node, Option.some.injEq] at hn
        subst hn
        exact hold
      · exact hi.heap.node_lt (by simpa [hfa] using hn)
  have hback : QueuesKept (update s.page a (.node (c.node q.inst junk))) s.page := .of_eq fun b => (hqueue b).symm
  refine hi.moved p hheap (fun p' hp => ⟨.inl ?_, (hi.pcs p').mono le_rfl ?_ ?_ ?_⟩) ?_ ?_ ?_ <;>
    try simp only [MsgSt.setPc, update_self]
  · simp [hp]
  · exact fun hq hv => (hi.pcs p').unlisted hq (hv.kept hback)
  · intro f hf
    obtain ⟨n, hn⟩ := (hi.pcs p').hand hf
    grind
  · intro f b R hf hR
    exact (hi.pcs p').loose hf (hqueue b ▸ hR)
  · constructor
    case old =>
      rintro q' ⟨⟩
      exact hold
    case unlisted => simp [MsgPc.removal]
    case hand =>
      rintro f ⟨⟩
      simp
    case loose =>
      rintro f b R ⟨⟩ hR
      exact hloose (hqueue b ▸ hR)
    case filled =>
      rintro q' f d ⟨⟩
      exact ⟨junk, by simp⟩
  · rintro f ⟨⟩ p' hp hf
    obtain ⟨n, hn⟩ := (hi.pcs p').hand hf
    simp [hna] at hn
  · intro f n hn
    by_cases hfa : f = a
    · exact .inl ⟨p, by simp [MsgPc.hand, hfa]⟩
    · rcases hi.kept (f := f) (n := n) (by simpa [hfa] using hn) with ⟨p', hp'⟩ | h
      · refine .inl ⟨p', ?_⟩
        have : p' ≠ p := by
          rintro rfl
          simp [pc, MsgPc.hand] at hp'
        simpa [this] using hp'
      · exact .inr fun {b R} hR hRi => h (hqueue b ▸ hR) hRi

omit [DecidableEq P] [DecidableEq A] in
/-- Relinking loses no node. -/
theorem QueueInv.kept_relinked {h : A → Page A} {g : A} {hd tl : Option A} {n : MsgNode A} (rel : Relinked s.page h a hd tl l)
    (hn : nodeAt h g = some n) : (∃ p, (s.pc p).hand = some g) ∨ ∀ {b R}, queueAt h b = some R → R.inst = n.inst → g ∈ nl b := by
  obtain ⟨m, hm, hb⟩ := rel.node_old hn
  rcases hi.kept hm with hp | hq
  · exact .inl hp
  · refine .inr fun hR hRi => ?_
    obtain ⟨S, hS, -, hSi, -⟩ := rel.queue_old hR
    exact hq hS (by rw [← hSi, hRi, MsgNode.inst_of_body hb])

/-- `sys_msgsnd` links its node at the end of its queue, and wakes the sleepers. -/
theorem QueueInv.append {c : SendCall} {h : A → Page A} {hd tl : Option A} {m : Msg} (pc : s.pc p = .appending q f c)
    (queue : queueAt s.page q.page = some Q) (inst : Q.inst = q.inst) (rel : Relinked s.page h q.page hd tl (nl q.page))
    (rep : HeapRep h s.listHead s.insts ql (update nl q.page (nl q.page ++ [f]))) :
    QueueInv ((({ s with page := h, log := s.log ++ [.sent p q.inst m] } : MsgSt P A).wakeup q.page).ret p 0)
      ql (update nl q.page (nl q.page ++ [f])) := by
  have hf : (s.pc p).hand = some f := by
    rw [pc]
    rfl
  refine hi.moved p rep (fun p' hp => ⟨?_, (hi.pcs p').relinked rel queue ?_⟩) ?_ ?_ ?_ <;>
    try simp only [MsgSt.ret, MsgSt.setPc, update_self]
  · simp only [ne_eq, hp, not_false_eq_true, update_of_ne]
    exact woken_wakeup _ q.page p'
  · intro g hg
    have hgf : g ≠ f := fun he => hp (hi.hand_inj hg (he ▸ hf))
    simpa [hgf] using (hi.pcs p').loose hg queue
  · exact .user
  · simp [MsgPc.hand]
  · intro g n hn
    by_cases hgf : g = f
    · -- the node is now in its queue, and no other queue has its instance
      subst hgf
      refine .inr fun {b R} hR hRi => ?_
      obtain ⟨junk, hfill⟩ := (hi.pcs p).filled pc
      obtain ⟨m, hm, hmi⟩ := rel.node_some hfill
      have hnm : n = m := Option.some.inj (hn.symm.trans hm)
      subst hnm
      obtain ⟨S, hS, -, hSi, -⟩ := rel.queue_old hR
      have hb : b = q.page := hi.heap.inst_inj hS queue (by
        rw [← hSi, hRi, MsgNode.inst_of_body hmi, inst]
        rfl)
      subst hb
      simp
    · rcases hi.kept_relinked rel hn with ⟨p', hp'⟩ | hq
      · have hpp : p' ≠ p := by
          rintro rfl
          exact hgf (Option.some.inj (hp'.symm.trans hf))
        refine .inl ⟨p', ?_⟩
        simp only [ne_eq, hpp, not_false_eq_true, update_of_ne]
        exact (woken_wakeup _ q.page p').hand.trans hp'
      · refine .inr fun {b R} hR hRi => ?_
        have := hq hR hRi
        by_cases hb : b = q.page
        · subst hb
          simp [this]
        · rwa [update_of_ne hb]

/-- `sys_msgrcv` unlinks the first node that it wants. -/
theorem QueueInv.unlink {c : RecvCall} {l₁ l₂ : List A} {h : A → Page A} {hd tl : Option A} {m : Msg} (pc : s.pc p = .receiving q c)
    (queue : queueAt s.page q.page = some Q) (split : nl q.page = l₁ ++ f :: l₂) (rel : Relinked s.page h q.page hd tl (nl q.page))
    (rep : HeapRep h s.listHead s.insts ql (update nl q.page (l₁ ++ l₂))) :
    QueueInv (({ s with page := h, log := s.log ++ [.took p q.inst c m] } : MsgSt P A).setPc p (.delivering f c))
      ql (update nl q.page (l₁ ++ l₂)) := by
  have hnd := (hi.heap.nodes queue).nodup
  rw [split] at hnd
  have hfl : f ∉ l₁ ++ l₂ := (List.nodup_middle.mp hnd |> List.nodup_cons.mp).1
  have hfq : f ∈ nl q.page := by simp [split]
  obtain ⟨n, hn, -⟩ := hi.heap.nodeAt_of_mem queue hfq
  refine hi.moved p rep (fun p' hp => ⟨.inl ?_, (hi.pcs p').relinked rel queue ?_⟩) ?_ ?_ ?_ <;>
    try simp only [MsgSt.setPc, update_self]
  · simp [hp]
  · intro g hg hgl
    refine (hi.pcs p').loose hg queue ?_
    rw [split]
    simp only [List.mem_append, List.mem_cons] at hgl ⊢
    tauto
  · constructor
    case old => simp [MsgPc.ref]
    case unlisted => simp [MsgPc.removal]
    case hand =>
      rintro g ⟨⟩
      obtain ⟨m, hm, -⟩ := rel.node_some hn
      exact ⟨m, hm⟩
    case loose =>
      rintro g b R ⟨⟩ hR
      by_cases hb : b = q.page
      · subst hb
        simpa using hfl
      · rw [update_of_ne hb]
        intro hfb
        rw [rel.queue_eq hb] at hR
        have h₁ := hi.heap.member hR hfb hn
        have h₂ := hi.heap.member queue hfq hn
        exact hb (hi.heap.inst_inj hR queue (h₁.symm.trans h₂))
    case filled => simp
  · rintro g ⟨⟩ p' _ hg
    exact (hi.pcs p').loose hg queue hfq
  · intro g m hm
    by_cases hgf : g = f
    · exact .inl ⟨p, by simp [MsgPc.hand, hgf]⟩
    · rcases hi.kept_relinked rel hm with ⟨p', hp'⟩ | hq
      · have hpp : p' ≠ p := by
          rintro rfl
          simp [pc, MsgPc.hand] at hp'
        exact .inl ⟨p', by simpa [hpp] using hp'⟩
      · refine .inr fun {b R} hR hRi => ?_
        have hgb := hq hR hRi
        by_cases hb : b = q.page
        · subst hb
          rw [split] at hgb
          simpa [hgf] using hgb
        · rwa [update_of_ne hb]

/-- `sys_msgrcv` frees the node in its hands. -/
theorem QueueInv.deliver {c : RecvCall} (pc : s.pc p = .delivering f c) (e : MsgEvent P) :
    QueueInv { s with page := update s.page f .free, pc := update s.pc p .user, log := s.log ++ [e] }
      ql nl := by
  have hf : (s.pc p).hand = some f := by
    rw [pc]
    rfl
  obtain ⟨n, hn⟩ := (hi.pcs p).hand hf
  have hqueue : ∀ b, queueAt (update s.page f .free) b = queueAt s.page b := by
    intro b
    have := queueAt_of_nodeAt hn
    grind
  have hheap : HeapRep (update s.page f .free) s.listHead s.insts ql nl := by
    refine hi.heap.frame hqueue ?_ ?_
    · intro b R hR g hg
      have : g ≠ f := fun he => (hi.pcs p).loose hf hR (he ▸ hg)
      simp [this]
    · intro g m hm
      have : g ≠ f := by
        rintro rfl
        simp at hm
      exact hi.heap.node_lt (by simpa [this] using hm)
  have hback : QueuesKept (update s.page f .free) s.page := .of_eq fun b => (hqueue b).symm
  refine hi.moved p hheap (fun p' hp => ⟨.inl ?_, (hi.pcs p').mono le_rfl ?_ ?_ ?_⟩) ?_ ?_ ?_ <;>
    try simp only [update_self]
  · simp [hp]
  · exact fun hq hv => (hi.pcs p').unlisted hq (hv.kept hback)
  · intro g hg
    have : g ≠ f := fun he => hp (hi.hand_inj hg (he ▸ hf))
    simp [this]
  · intro g b R hg hR
    exact (hi.pcs p').loose hg (hqueue b ▸ hR)
  · exact .user
  · simp [MsgPc.hand]
  · intro g m hm
    have hgf : g ≠ f := by
      rintro rfl
      simp at hm
    rcases hi.kept (f := g) (n := m) (by simpa [hgf] using hm) with ⟨p', hp'⟩ | h
    · have hpp : p' ≠ p := by
        rintro rfl
        exact hgf (Option.some.inj (hp'.symm.trans hf))
      exact .inl ⟨p', by simpa [hpp] using hp'⟩
    · exact .inr fun {b R} hR hRi => h (hqueue b ▸ hR) hRi

omit [DecidableEq A] in
/-- `sys_msgctl` takes a queue off the list. -/
theorem QueueInv.unlist {l₁ l₂ : List A} {h : A → Page A} {head : Option A} (pc : s.pc p = .user) (split : ql = l₁ ++ a :: l₂)
    (queue : queueAt s.page a = some Q) (rel : Relisted s.page h) (rep : HeapRep h head s.insts (l₁ ++ l₂) nl) :
    QueueInv (({ s with page := h, listHead := head } : MsgSt P A).setPc p (.removing ⟨a, Q.inst⟩)) (l₁ ++ l₂) nl := by
  have hnd := hi.heap.list.nodup
  rw [split] at hnd
  have hal : a ∉ l₁ ++ l₂ := (List.nodup_middle.mp hnd |> List.nodup_cons.mp).1
  have hsub : ∀ {b}, b ∉ ql → b ∉ l₁ ++ l₂ := by
    intro b hb hbl
    rw [split] at hb
    simp only [List.mem_append, List.mem_cons] at hb hbl
    tauto
  refine hi.moved p rep (fun p' hp => ⟨.inl ?_, (hi.pcs p').mono le_rfl ?_ ?_ ?_⟩) ?_ ?_ ?_ <;>
    try simp only [MsgSt.setPc, update_self]
  · simp [hp]
  · exact fun hq hv => hsub ((hi.pcs p').unlisted hq (hv.kept rel.kept_back))
  · intro g _
    exact rel.node_eq g
  · intro g b R hg hR
    obtain ⟨S, hS, -⟩ := rel.kept_back _ _ hR
    exact (hi.pcs p').loose hg hS
  · constructor
    case old =>
      rintro q ⟨⟩
      exact hi.heap.inst_lt queue
    case unlisted =>
      rintro q ⟨⟩ _
      exact hal
    all_goals simp [MsgPc.hand]
  · simp [MsgPc.hand]
  · intro g n hn
    rcases hi.kept (rel.node_eq g ▸ hn) with ⟨p', hp'⟩ | hq
    · have hpp : p' ≠ p := by
        rintro rfl
        simp [pc, MsgPc.hand] at hp'
      exact .inl ⟨p', by simpa [hpp] using hp'⟩
    · refine .inr fun {b R} hR hRi => ?_
      obtain ⟨S, hS, hSi⟩ := rel.kept_back _ _ hR
      exact hq hS (hSi.trans hRi)

omit [DecidableEq P] in
/-- Where the nodes of a queue are freed, every queue stays. -/
theorem QueueInv.drain_kept {h : A → Page A} (queue : queueAt s.page a = some Q)
    (freed : ∀ x, h x = if x ∈ nl a then .free else s.page x) :
    QueuesKept s.page (update h a (.queue { Q with head := none, tail := none })) ∧
      QueuesKept (update h a (.queue { Q with head := none, tail := none })) s.page := by
  constructor
  · intro b R hR
    by_cases hb : b = a
    · subst hb
      rw [queue] at hR
      cases hR
      exact ⟨{ Q with head := none, tail := none }, by simp, rfl⟩
    · have hbl : b ∉ nl a := fun hbl => by
        obtain ⟨n, hn, -⟩ := hi.heap.nodeAt_of_mem queue hbl
        simp [queueAt_of_nodeAt hn] at hR
      exact ⟨R, by simpa [queueAt, hb, freed, hbl] using hR, rfl⟩
  · intro b R hR
    by_cases hb : b = a
    · subst hb
      simp only [queueAt_update, ↓reduceIte, queue?_queue, Option.some.injEq] at hR
      subst hR
      exact ⟨Q, queue, rfl⟩
    · by_cases hbl : b ∈ nl a
      · simp [queueAt, hb, freed, hbl] at hR
      · exact ⟨R, by simpa [queueAt, hb, freed, hbl] using hR, rfl⟩

/-- `sys_msgctl` frees the nodes of the queue, and wakes the sleepers. -/
theorem QueueInv.drain {p : P} {q : QueueRef A} {Q : MsgQueue A} {h : A → Page A} (pc : s.pc p = .removing q)
    (queue : queueAt s.page q.page = some Q) (freed : ∀ x, h x = if x ∈ nl q.page then .free else s.page x)
    (rep : HeapRep (update h q.page (.queue { Q with head := none, tail := none })) s.listHead s.insts ql
      (update nl q.page [])) :
    QueueInv ((({ s with page := update h q.page (.queue { Q with head := none, tail := none }) } : MsgSt P A).wakeup
      q.page).setPc p (.freeing q)) ql (update nl q.page []) := by
  have hnode : ∀ {g}, g ∉ nl q.page →
      nodeAt (update h q.page (.queue { Q with head := none, tail := none })) g = nodeAt s.page g := by
    intro g hg
    by_cases hgq : g = q.page
    · simp [hgq, nodeAt_of_queueAt queue]
    · simp [nodeAt, hgq, freed, hg]
  have hold : ∀ {g n}, nodeAt (update h q.page (.queue { Q with head := none, tail := none })) g = some n →
      g ∉ nl q.page ∧ nodeAt s.page g = some n := by
    intro g n hn
    have hg : g ∉ nl q.page := by
      intro hg
      by_cases hgq : g = q.page
      · simp [hgq] at hn
      · simp [nodeAt, hgq, freed, hg] at hn
    exact ⟨hg, hnode hg ▸ hn⟩
  have hback : QueuesKept (update h q.page (.queue { Q with head := none, tail := none })) s.page :=
    (hi.drain_kept queue freed).2
  have hlist : ∀ {b R g}, queueAt s.page b = some R → g ∉ nl q.page → (g ∈ update nl q.page [] b ↔ g ∈ nl b) := by
    intro b R g _ hg
    by_cases hb : b = q.page
    · subst hb
      simp [hg]
    · rw [update_of_ne hb]
  have hpc : (s.pc p).hand = none := by
    rw [pc]
    rfl
  refine hi.moved p rep (fun p' hp => ⟨?_, (hi.pcs p').mono le_rfl ?_ ?_ ?_⟩) ?_ ?_ ?_ <;>
    try simp only [MsgSt.setPc, update_self]
  · simp only [ne_eq, hp, not_false_eq_true, update_of_ne]
    exact woken_wakeup _ q.page p'
  · exact fun hq hv => (hi.pcs p').unlisted hq (hv.kept hback)
  · intro g hg
    exact hnode ((hi.pcs p').loose hg queue)
  · intro g b R hg hR
    obtain ⟨S, hS, -⟩ := hback _ _ hR
    rw [hlist hS ((hi.pcs p').loose hg queue)]
    exact (hi.pcs p').loose hg hS
  · constructor
    case old =>
      intro q' hq'
      exact (hi.pcs p).old (by rw [pc]; exact hq')
    case unlisted =>
      intro q' hq' hv
      exact (hi.pcs p).unlisted (by rw [pc]; exact hq') (hv.kept hback)
    all_goals simp [MsgPc.hand]
  · simp [MsgPc.hand]
  · intro g n hn
    obtain ⟨hg, hn⟩ := hold hn
    rcases hi.kept hn with ⟨p', hp'⟩ | hq
    · have hpp : p' ≠ p := by
        rintro rfl
        simp [hpc] at hp'
      refine .inl ⟨p', ?_⟩
      simp only [ne_eq, hpp, not_false_eq_true, update_of_ne]
      exact (woken_wakeup _ q.page p').hand.trans hp'
    · refine .inr fun {b R} hR hRi => ?_
      obtain ⟨S, hS, hSi⟩ := hback _ _ hR
      exact (hlist hS hg).mpr (hq hS (hSi.trans hRi))

/-- `sys_msgctl` frees the queue. -/
theorem QueueInv.free (pc : s.pc p = .freeing q) (queue : queueAt s.page q.page = some Q) (inst : Q.inst = q.inst) :
    QueueInv (({ s with page := update s.page q.page .free } : MsgSt P A).ret p 0) ql nl := by
  have hnode : ∀ g, nodeAt (update s.page q.page .free) g = nodeAt s.page g := by
    intro g
    have := nodeAt_of_queueAt queue
    grind
  have hold : ∀ {b R}, queueAt (update s.page q.page .free) b = some R → queueAt s.page b = some R := by
    intro b R hR
    by_cases hb : b = q.page
    · simp [hb] at hR
    · simpa [hb] using hR
  have hback : QueuesKept (update s.page q.page .free) s.page := by
    intro b R hR
    exact ⟨R, hold hR, rfl⟩
  have hrem : (s.pc p).removal = some q := by
    rw [pc]
    rfl
  have hlist : q.page ∉ ql := (hi.pcs p).unlisted hrem ⟨Q, queue, inst⟩
  refine hi.moved p (hi.heap.freeQueue queue hlist) (fun p' hp => ⟨.inl ?_, (hi.pcs p').mono le_rfl ?_ ?_ ?_⟩) ?_ ?_ ?_ <;>
    try simp only [MsgSt.ret, MsgSt.setPc, update_self]
  · simp [hp]
  · exact fun hq hv => (hi.pcs p').unlisted hq (hv.kept hback)
  · intro g _
    exact hnode g
  · intro g b R hg hR
    exact (hi.pcs p').loose hg (hold hR)
  · exact .user
  · simp [MsgPc.hand]
  · intro g n hn
    rcases hi.kept (hnode g ▸ hn) with ⟨p', hp'⟩ | hq
    · have hpp : p' ≠ p := by
        rintro rfl
        simp [pc, MsgPc.hand] at hp'
      exact .inl ⟨p', by simpa [hpp] using hp'⟩
    · exact .inr fun hR hRi => hq (hold hR) hRi

omit [DecidableEq P] in
/-- Other parts of the kernel take a page or give it back. -/
theorem QueueInv.env {c : Page A} (node : (s.page a).node? = none) (queue : (s.page a).queue? = none) (node' : c.node? = none)
    (queue' : c.queue? = none) : QueueInv { s with page := update s.page a c } ql nl := by
  have hnode : ∀ g, nodeAt (update s.page a c) g = nodeAt s.page g := by
    intro g
    by_cases hg : g = a
    · subst hg
      simp [node', nodeAt, node]
    · simp [hg]
  have hqueue : ∀ g, queueAt (update s.page a c) g = queueAt s.page g := by
    intro g
    by_cases hg : g = a
    · subst hg
      simp [queue', queueAt, queue]
    · simp [hg]
  constructor
  case heap =>
    refine hi.heap.frame hqueue (fun _ _ _ f _ => hnode f) fun f n hn => ?_
    exact hi.heap.node_lt (hnode f ▸ hn)
  case pcs =>
    intro p
    refine (hi.pcs p).mono le_rfl ?_ (fun _ => hnode _) fun hf hQ => (hi.pcs p).loose hf (hqueue _ ▸ hQ)
    exact fun hq hv => (hi.pcs p).unlisted hq (hv.kept (.of_eq fun b => (hqueue b).symm))
  case hand_inj => exact hi.hand_inj
  case kept =>
    intro f n hn
    rcases hi.kept (hnode f ▸ hn) with hp | hq
    · exact .inl hp
    · exact .inr fun hQ hQi => hq (hqueue _ ▸ hQ) hQi

omit hi in
/-- No outcome is a fault. -/
theorem Outcome.fault_eq {a : MsgAct P A} (h : Outcome s ql nl a s' ql' nl') : s'.fault = s.fault := by
  cases h with
  | quiet page listHead insts nextId fault => exact fault
  | _ => rfl

/-- Every outcome keeps the invariant. -/
theorem QueueInv.outcome {a : MsgAct P A} (h : Outcome s ql nl a s' ql' nl') : QueueInv s' ql' nl' := by
  cases h with
  | quiet page listHead insts nextId fault pc refs calls log mute => exact hi.quiet page listHead insts pc
  | create k pc free => exact hi.create k pc free
  | fill pc free => exact hi.fill pc free
  | append pc queue inst rel rep => exact hi.append pc queue inst rel rep
  | unlink pc queue inst split node wanted first rel rep => exact hi.unlink pc queue split rel rep
  | deliver pc node event => exact hi.deliver pc _
  | unlist pc split queue rel rep => exact hi.unlist pc split queue rel rep
  | drain pc queue inst freed rep => exact hi.drain pc queue freed rep
  | free pc queue inst => exact hi.free pc queue inst
  | env act_eq node queue node' queue' => exact hi.env node queue node' queue'

end Step

end OsLab
