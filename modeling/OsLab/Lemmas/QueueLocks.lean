import OsLab.QueueLocks
import OsLab.Lemmas.QueueRuns
import OsLab.Lib.Wakeup

/-!
# What holds of the sleepers on a queue

A receiver that is about to sleep has the lock of its queue, in which it has found nothing that it wants. What is linked while it
sleeps is followed by a wakeup, by a process that keeps the lock until then. So a sleeper whose queue has a message for it is owed a
wakeup (`LockInv.paid`), by a process that holds the lock of the queue.
-/

namespace OsLab

open Function (update update_self update_of_ne)

namespace QueueLockAux

variable {P A : Type*} {q q' : QueueRef A} {p' : P} {d : RecvCall} {f : A}

/-- Some node of the list is one that a receiver of this type wants. -/
def Wanted (h : A → Page A) (l : List A) (t : Int) : Prop := ∃ f ∈ l, ∃ n, nodeAt h f = some n ∧ (t = 0 ∨ n.msgtyp = t)

/-- Nodes that were in the list before, with the type that they had. -/
theorem Wanted.old {h h' : A → Page A} {l l' : List A} {t : Int} (hw : Wanted h' l' t)
    (hold : ∀ f ∈ l', ∀ n, nodeAt h' f = some n → f ∈ l ∧ ∃ m, nodeAt h f = some m ∧ m.msgtyp = n.msgtyp) : Wanted h l t := by
  obtain ⟨f, hf, n, hn, ht⟩ := hw
  obtain ⟨hl, m, hm, hmn⟩ := hold f hf n hn
  exact ⟨f, hl, m, hm, hmn ▸ ht⟩

theorem MsgNode.msgtyp_of_body {m n : MsgNode A} (hb : m.body = n.body) : m.msgtyp = n.msgtyp := by
  simp only [MsgNode.body, MsgNode.mk.injEq] at hb
  exact hb.2.1

section Outcomes

variable [DecidableEq P] [DecidableEq A] {s s' : MsgSt P A} {ql ql' : List A} {nl nl' : A → List A} {act : MsgAct P A}

/-- One queue is relinked: the nodes of the others are the ones they were. -/
theorem wanted_relinked {h : A → Page A} {a b : A} {hd tl : Option A} {l : List A} {t : Int}
    (rel : Relinked s.page h a hd tl (nl a)) (hl : b = a → ∀ f ∈ l, f ∈ nl a)
    (hw : Wanted h (update nl a l b) t) : Wanted s.page (nl b) t := by
  refine hw.old fun f hf n hn => ?_
  obtain ⟨m, hm, hb⟩ := rel.node_old hn
  refine ⟨?_, m, hm, MsgNode.msgtyp_of_body hb⟩
  by_cases hba : b = a
  · subst hba
    rw [update_self] at hf
    exact hl rfl f hf
  · rwa [update_of_ne hba] at hf

/-- Whatever a queue has for a receiver after a step, it had before, unless the step has linked a node to it. -/
theorem wanted_old (hi : QueueInv s ql nl) (h : Outcome s ql nl act s' ql' nl') {t : Int}
    (hne : ∀ p q₀ f c, act = .sndAppend p → s.pc p = .appending q₀ f c → q₀.page ≠ q.page) (hv : q.Valid s.page)
    (hw : Wanted s'.page (nl' q.page) t) : Wanted s.page (nl q.page) t := by
  obtain ⟨R, hR, -⟩ := hv
  cases h with
  | quiet page listHead insts nextId fault pc refs calls log mute => rwa [page] at hw
  | @create p key msgflg a k pc free =>
    have hqa : q.page ≠ a := by
      rintro rfl
      simp [queueAt, free] at hR
    rw [update_of_ne hqa] at hw
    refine hw.old fun f hf n hn => ⟨hf, n, ?_, rfl⟩
    have hfa : f ≠ a := by
      rintro rfl
      simp [MsgSt.ret, MsgSt.setPc] at hn
    simpa [MsgSt.ret, MsgSt.setPc, hfa] using hn
  | @fill p q₀ c a junk pc free =>
    refine hw.old fun f hf n hn => ⟨hf, n, ?_, rfl⟩
    have hfa : f ≠ a := by
      rintro rfl
      obtain ⟨m, hm, -⟩ := hi.heap.nodeAt_of_mem hR hf
      simp [nodeAt, free] at hm
    simpa [MsgSt.setPc, hfa] using hn
  | @append p q₀ f c h hd tl Q pc queue inst rel rep =>
    exact wanted_relinked rel (fun he => absurd he.symm (hne p q₀ f c rfl pc)) hw
  | @unlink p q₀ c l₁ l₂ f n h hd tl Q pc queue inst split node wanted first rel rep =>
    refine wanted_relinked rel (fun _ g hg => ?_) hw
    rw [split]
    simp only [List.mem_append, List.mem_cons] at hg ⊢
    tauto
  | @deliver p f c n beyond e pc node event =>
    refine hw.old fun g hg m hm => ⟨hg, m, ?_, rfl⟩
    have hgf : g ≠ f := by
      rintro rfl
      simp at hm
    simpa [hgf] using hm
  | @unlist p msqid cmd a Q l₁ l₂ h head pc split queue rel rep =>
    exact hw.old fun g hg m hm => ⟨hg, m, (rel.node_eq g).symm.trans hm, rfl⟩
  | @drain p q₀ Q h pc queue inst freed rep =>
    refine hw.old fun g hg m hm => ?_
    by_cases hqq : q.page = q₀.page
    · rw [hqq, update_self] at hg
      cases hg
    · rw [update_of_ne hqq] at hg
      have hgq : g ≠ q₀.page := by
        rintro rfl
        simp [MsgSt.setPc, MsgSt.wakeup] at hm
      have hgl : g ∉ nl q₀.page := by
        intro hgl
        simp [MsgSt.setPc, MsgSt.wakeup, nodeAt, hgq, freed, hgl] at hm
      exact ⟨hg, m, by simpa [MsgSt.setPc, MsgSt.wakeup, nodeAt, hgq, freed, hgl] using hm, rfl⟩
  | @free p q₀ Q pc queue inst =>
    refine hw.old fun g hg m hm => ⟨hg, m, ?_, rfl⟩
    have hgq : g ≠ q₀.page := by
      rintro rfl
      simp [MsgSt.ret, MsgSt.setPc] at hm
    simpa [MsgSt.ret, MsgSt.setPc, hgq] using hm
  | @env act a c act_eq node queue node' queue' =>
    refine hw.old fun g hg m hm => ⟨hg, m, ?_, rfl⟩
    have hga : g ≠ a := by
      rintro rfl
      simp [node'] at hm
    simpa [hga] using hm

end Outcomes

/-! ## Who moves -/

/-- At most this process has moved, and not to sleep. -/
def PcMoves (s t : MsgSt P A) (p : P) [DecidableEq P] : Prop :=
  t.pc = s.pc ∨ ∃ c, (∀ q d, c ≠ .asleep q d) ∧ t.pc = update s.pc p c

section Moves

variable [DecidableEq P] {s t : MsgSt P A} {p : P}

theorem PcMoves.ret (r : Int) : PcMoves s (s.ret p r) p := .inr ⟨.user, nofun, rfl⟩

theorem PcMoves.setPc {c : MsgPc A} (hc : ∀ q d, c ≠ .asleep q d) : PcMoves s (s.setPc p c) p := .inr ⟨c, hc, rfl⟩

theorem PcMoves.fail (f : Fault) : PcMoves s (s.fail f) p := .inl rfl

/-- A process that has not moved itself is where it was. -/
theorem PcMoves.other (h : PcMoves s t p) (hp : p' ≠ p) : t.pc p' = s.pc p' := by
  rcases h with h | ⟨c, -, h⟩
  · rw [h]
  · rw [h, update_of_ne hp]

/-- Nobody goes to sleep. -/
theorem PcMoves.asleep (h : PcMoves s t p) (hp : t.pc p' = .asleep q d) : s.pc p' = .asleep q d := by
  rcases h with h | ⟨c, hc, h⟩
  · rwa [h] at hp
  · rw [h] at hp
    by_cases hpp : p' = p
    · subst hpp
      rw [update_self] at hp
      exact absurd hp (hc q d)
    · rwa [update_of_ne hpp] at hp

variable [DecidableEq A] [Fintype A]

omit [DecidableEq A] in
/-- A lookup moves its caller alone. -/
theorem PcMoves.lookup {msqid : Int} {found : Option A → A → MsgSt P A} (hf : ∀ b a, PcMoves s (found b a) p) :
    PcMoves s (s.lookup p msqid found) p := by
  unfold MsgSt.lookup
  split
  · exact hf _ _
  · exact .ret _
  · exact .fail _
  · exact .fail _

theorem PcMoves.get {key msgflg : Arg} {page : Option A} (h : sysMsgget s p key msgflg page = some t) : PcMoves s t p := by
  unfold sysMsgget at h
  split at h
  · split at h
    · cases h
      exact .setPc nofun
    · split at h
      · cases h
        exact .ret _
      · split at h
        · cases h
          exact .ret _
        · split at h
          · cases h
            exact .inr ⟨.user, nofun, rfl⟩
          · cases h
    · cases h
      exact .fail _
    · cases h
      exact .fail _
  · cases h
    exact .ret _

omit [DecidableEq A] in
theorem PcMoves.snd (msqid msgp msgsz msgflg : Arg) (sz : Nat) (typ : Int) (text : Nat → UInt8) :
    PcMoves s (sysMsgsnd s p msqid msgp msgsz msgflg sz typ text) p := by
  unfold sysMsgsnd
  split
  · split
    · exact .ret _
    · exact .lookup fun _ _ => .setPc nofun
  · exact .ret _

omit [Fintype A] in
theorem PcMoves.fill {c : SendCall} {page : Option A} {junk : Nat → UInt8} (h : msgsndFill s p q c page junk = some t) :
    PcMoves s t p := by
  unfold msgsndFill at h
  split at h
  · cases h
    exact .ret _
  · split at h
    · split at h
      · cases h
        exact .fail _
      · cases h
        exact .inr ⟨.appending q _ c, nofun, rfl⟩
    · cases h

omit [DecidableEq A] in
theorem PcMoves.rcv (msqid msgp msgsz msgtyp msgflg : Arg) (sz : Nat) :
    PcMoves s (sysMsgrcv s p msqid msgp msgsz msgtyp msgflg sz) p := by
  unfold sysMsgrcv
  split
  · exact .lookup fun _ _ => .setPc nofun
  · exact .ret _

omit [Fintype A] in
theorem PcMoves.getId (q : QueueRef A) : PcMoves s (msggetId s p q) p := by
  unfold msggetId
  split
  · exact .fail _
  · exact .ret _

omit [Fintype A] in
theorem PcMoves.deliver (f : A) (c : RecvCall) (beyond : Nat → UInt8) : PcMoves s (msgrcvDeliver s p f c beyond) p := by
  unfold msgrcvDeliver
  split
  · exact .fail _
  · dsimp only
    split
    · exact .inr ⟨.user, nofun, rfl⟩
    · exact .inr ⟨.user, nofun, rfl⟩

omit [DecidableEq A] [Fintype A] in
/-- A `kill` wakes its target. -/
theorem woken_wake {r : P} {c : RecvCall} (hr : s.pc r = .asleep q c) :
    (s.pc p).Woken (({ s with killed := update s.killed r true }.setPc r (.receiving q c)).pc p) := by
  by_cases hp : p = r
  · subst hp
    exact .inr ⟨q, c, hr, by simp [MsgSt.setPc]⟩
  · exact .inl (by simp [MsgSt.setPc, hp])

/-- A step outside the locks: every process is where it was, or has been woken, or is the one that takes the step, which has no
lock, and has not gone to sleep. -/
theorem call_pc {s : QueueLockSt P A} {act : MsgAct P A} (hadm : s.admits act = true) (h : msgStep s.msg act = some t) (p : P) :
    (s.msg.pc p).Woken (t.pc p) ∨ ((s.stage p).queue = none ∧ ∀ q d, t.pc p = .asleep q d → s.msg.pc p = .asleep q d) := by
  have hmoves : ∀ {r : P}, (s.stage r).queue.isNone = true → PcMoves s.msg t r →
      (s.msg.pc p).Woken (t.pc p) ∨ ((s.stage p).queue = none ∧ ∀ q d, t.pc p = .asleep q d → s.msg.pc p = .asleep q d) := by
    intro r hr hm
    by_cases hp : p = r
    · subst hp
      exact .inr ⟨Option.isNone_iff_eq_none.mp hr, fun q d => hm.asleep⟩
    · exact .inl (.inl (hm.other hp))
  cases (msgMoves_of_msgStep h).2 with
  | get _ hget => exact hmoves hadm (.get hget)
  | getId => exact hmoves hadm (.getId _)
  | snd => exact hmoves hadm (.snd ..)
  | sndAlloc _ hfill => exact hmoves hadm (.fill hfill)
  | rcv => exact hmoves hadm (.rcv ..)
  | deliver => exact hmoves hadm (.deliver ..)
  | wake hr => exact .inl (woken_wake hr)
  | kill | take | give => exact .inl (.inl rfl)
  -- the critical sections and the removals are not admitted
  | _ => simp [QueueLockSt.admits] at hadm

end Moves

/-! ## Sleeping and waking -/

section Wake

variable [DecidableEq A] {s : MsgSt P A} {ql : List A} {nl : A → List A} {a : A}

/-- To sleep on a queue is as good as to be about to read it. -/
theorem placeOk_asleep {h : A → Page A} {insts : Nat} (hc : PlaceOk h insts ql nl (.receiving q d)) :
    PlaceOk h insts ql nl (.asleep q d) where
  old hq := hc.old hq
  unlisted := by simp [MsgPc.removal]
  hand := by simp [MsgPc.hand]
  loose := by simp [MsgPc.hand]
  filled := by simp

/-- The places of the sleepers are right before a wakeup when they are after it. -/
theorem queueInv_of_wakeup (hi : QueueInv (s.wakeup a) ql nl) : QueueInv s ql nl := by
  refine hi.quiet rfl rfl rfl fun p => ?_
  rcases woken_wakeup s a p with he | ⟨q, d, hp, hp'⟩
  · exact .inl he.symm
  · refine .inr ?_
    have hpc := hi.pcs p
    rw [hp'] at hpc
    rw [hp, hp']
    exact ⟨rfl, rfl, placeOk_asleep hpc⟩

/-- A wakeup changes no queue. -/
theorem queueInv_wakeup (hi : QueueInv s ql nl) : QueueInv (s.wakeup a) ql nl := by
  refine hi.quiet rfl rfl rfl fun p => ?_
  rcases woken_wakeup s a p with he | ⟨q, d, hp, hp'⟩
  · exact .inl he
  · refine .inr ?_
    have hpc := hi.pcs p
    rw [hp] at hpc
    rw [hp, hp']
    exact ⟨rfl, rfl, hpc.wake⟩

theorem refsOk_wakeup : RefsOk (s.wakeup a) ↔ RefsOk s := by
  have href : ∀ p, ((s.wakeup a).pc p).ref = (s.pc p).ref := fun p => (woken_wakeup s a p).ref
  constructor
  · intro hr p q hq
    exact hr p q ((href p).trans hq)
  · intro hr p q hq
    exact hr p q ((href p).symm.trans hq)

theorem sized_wakeup : (s.wakeup a).Sized ↔ s.Sized := by
  have hcall : ∀ p, ((s.wakeup a).pc p).sendCall = (s.pc p).sendCall := fun p => (woken_wakeup s a p).sendCall
  constructor
  · intro hz p d hd
    exact hz p d ((hcall p).trans hd)
  · intro hz p d hd
    exact hz p d ((hcall p).symm.trans hd)

/-- After a wakeup nobody sleeps on the address, and who sleeps elsewhere slept there before. -/
theorem asleep_wakeup {p : P} (h : (s.wakeup a).pc p = .asleep q d) : s.pc p = .asleep q d ∧ q.page ≠ a := by
  rcases woken_wakeup s a p with he | ⟨q', d', -, hp'⟩
  · rw [he] at h
    refine ⟨h, fun hq => ?_⟩
    simp [MsgSt.wakeup, h, hq] at he
  · rw [hp'] at h
    cases h

variable [DecidableEq P] {p : P}

theorem ret_wakeup (r : Int) : (s.wakeup a).ret p r = (s.ret p r).wakeup a := by
  have hpc : ((s.wakeup a).ret p r).pc = ((s.ret p r).wakeup a).pc := by
    funext p'
    by_cases hp : p' = p
    · subst hp
      simp [MsgSt.ret, MsgSt.setPc, MsgSt.wakeup]
    · simp [MsgSt.ret, MsgSt.setPc, MsgSt.wakeup, hp]
  simp only [MsgSt.ret, MsgSt.setPc, MsgSt.wakeup] at hpc ⊢
  rw [hpc]

variable [Fintype A]

omit [Fintype A] in
/-- The step of `msgSys` is the change and the wakeup, one after the other. -/
theorem msgsndLink_eq (hi : QueueInv s ql nl) {Q : MsgQueue A} {c : SendCall} (hp : s.pc p = .appending q f c) (hd : s.deref q = some Q) :
    msgsndLink s p q f c = (msgsndInsert s p q f c).wakeup q.page := by
  obtain ⟨hQ, hinst⟩ := queueAt_of_deref hd
  obtain ⟨junk, hf⟩ := (hi.pcs p).filled hp
  obtain ⟨h, -, -, hok, -, -⟩ := hi.heap.append hQ hf rfl hinst.symm ((hi.pcs p).loose (by rw [hp]; rfl) hQ)
  simp only [msgsndLink, msgsndInsert, hd, hok]
  exact ret_wakeup 0

omit [Fintype A] in
theorem msgsndInsert_other {c : SendCall} (hp : p' ≠ p) : (msgsndInsert s p q f c).pc p' = s.pc p' := by
  unfold msgsndInsert
  split
  · rfl
  · split
    · rfl
    · simp [MsgSt.ret, MsgSt.setPc, hp]

omit [Fintype A] in
/-- A sender does not sleep. -/
theorem msgsndInsert_self {c : SendCall} (hp : s.pc p = .appending q f c) : (msgsndInsert s p q f c).pc p ≠ .asleep q' d := by
  unfold msgsndInsert
  split
  · simp [MsgSt.fail, hp]
  · split
    · simp [MsgSt.fail, hp]
    · simp [MsgSt.ret, MsgSt.setPc]

theorem msgrcvScan_other {c : RecvCall} (hp : p' ≠ p) : (msgrcvScan s p q c).pc p' = s.pc p' := by
  unfold msgrcvScan
  repeat' split
  all_goals simp [MsgSt.fail, MsgSt.ret, MsgSt.setPc, hp]

/-- A turn of the loop of the receiver that ends in `sleep` has found nothing. -/
theorem not_wanted_of_asleep (hi : QueueInv s ql nl) {Q : MsgQueue A} {c c' : RecvCall} (hd : s.deref q = some Q)
    (h : (msgrcvScan s p q c).pc p = .asleep q' c') : ¬Wanted s.page (nl q.page) c.msgtyp := by
  rcases hi.seekNode (queueAt_of_deref hd).1 c.msgtyp with ⟨l₁, f, l₂, n, -, hn, -, -, heq⟩ | ⟨hnone, -⟩
  · simp [msgrcvScan, hd, heq, hn, MsgSt.setPc] at h
  · rintro ⟨f, hf, n, hn, hw⟩
    exact hnone f hf n hn hw

end Wake

/-! ## The invariant -/

/-- The queue in which the process has yet to look, or to sleep. -/
def bound : LockStage A → Option (QueueRef A)
  | .entered q => some q
  | .stalling q => some q
  | _ => none

/-- Without a queue nobody is bound. -/
theorem bound_of_queue {g : LockStage A} (hg : g.queue = none) : bound g = none := by
  cases g with
  | outside => rfl
  | _ => cases hg

/-- Who sleeps on which page, which pages have a message for it, and who has yet to wake the sleepers of which page. -/
def ledger (s : QueueLockSt P A) (nl : A → List A) : Ledger P A where
  asleep p := {a | ∃ q d, s.msg.pc p = .asleep q d ∧ q.page = a}
  ready p := {a | ∃ d, (s.msg.pc p).recvCall = some d ∧ Wanted s.msg.page (nl a) d.msgtyp}
  owes p := {a | ∃ q, s.stage p = .waking q ∧ q.page = a}

/-- What holds in every state of a run in which messages fit their pages. -/
structure LockInv (s : QueueLockSt P A) (ql : List A) (nl : A → List A) : Prop where
  queues : QueueInv s.msg ql nl
  refs : RefsOk s.msg
  sized : s.msg.Sized
  holds : ∀ p q, (s.stage p).queue = some q → s.holder q.page = some p
  entered : ∀ p q, s.stage p = .entered q → (s.msg.pc p).lockRef = some q
  stalling : ∀ p q, s.stage p = .stalling q → ∃ c, s.msg.pc p = .receiving q c ∧ ¬Wanted s.msg.page (nl q.page) c.msgtyp
  paid : (ledger s nl).Paid

section Step

variable {s s' : QueueLockSt P A} {ql ql' : List A} {nl nl' : A → List A} {p : P}

theorem LockInv.boot (hb : s.Boot) : LockInv s [] fun _ => [] where
  queues := .boot hb.msg
  refs := .boot hb.msg
  sized := .boot hb.msg
  holds p q hq := by
    rw [hb.stage] at hq
    cases hq
  entered p q hq := by
    rw [hb.stage] at hq
    cases hq
  stalling p q hq := by
    rw [hb.stage] at hq
    cases hq
  paid := by
    refine Ledger.paid_of_awake ?_
    rintro p a ⟨q, d, hp, -⟩
    rw [hb.msg.pc] at hp
    cases hp

/-- A run that has been stopped keeps the invariant. -/
theorem LockInv.fail (hI : LockInv s ql nl) (f : Fault) : LockInv { s with msg := s.msg.fail f } ql nl :=
  ⟨⟨hI.queues.heap, hI.queues.pcs, hI.queues.hand_inj, hI.queues.kept⟩, hI.refs, hI.sized, hI.holds, hI.entered,
    hI.stalling, hI.paid⟩

/-- Two processes do not have the lock of one queue. -/
theorem LockInv.page_ne (hI : LockInv s ql nl) (hp : (s.stage p).queue = some q) (hp' : (s.stage p').queue = some q') (hne : p' ≠ p) :
    q.page ≠ q'.page := by
  intro he
  have h := hI.holds p q hp
  have h' := hI.holds p' q' hp'
  rw [he, h'] at h
  exact hne (Option.some.inj h)

/-- A wakeup does not move who holds a lock. -/
theorem woken_lockRef {c c' : MsgPc A} (hw : c.Woken c') (hc : c.lockRef = some q) : c' = c := by
  rcases hw with he | ⟨q', d, rfl, -⟩
  · exact he
  · cases hc

theorem woken_asleep {c c' : MsgPc A} (hw : c.Woken c') (hc : c' = .asleep q d) : c = .asleep q d := by
  rcases hw with he | ⟨q', d', -, rfl⟩
  · rw [← he, hc]
  · cases hc

/-- The pages change, and each process is where it was, or has been woken, or goes from a place that the invariant does not bind it to,
and not to sleep; what the queues have for a process whose pointer is good they had before. -/
theorem LockInv.keep (hI : LockInv s ql nl) {t : MsgSt P A} (hq : QueueInv t ql' nl') (hr : RefsOk t) (hz : t.Sized)
    (hpc : ∀ p, (s.msg.pc p).Woken (t.pc p) ∨
      (bound (s.stage p) = none ∧ ∀ q d, t.pc p = .asleep q d → s.msg.pc p = .asleep q d))
    (hold : ∀ {q : QueueRef A} {k : Int}, q.Valid s.msg.page → Wanted t.page (nl' q.page) k → Wanted s.msg.page (nl q.page) k) :
    LockInv { s with msg := t } ql' nl' := by
  have hsame : ∀ p q, bound (s.stage p) = some q → (s.msg.pc p).lockRef = some q → t.pc p = s.msg.pc p := by
    intro p q hs hl
    rcases hpc p with hw | ⟨hnone, -⟩
    · exact woken_lockRef hw hl
    · rw [hnone] at hs
      cases hs
  constructor
  case queues => exact hq
  case refs => exact hr
  case sized => exact hz
  case holds => exact hI.holds
  case entered =>
    intro p q hp
    have hl := hI.entered p q hp
    have he : t.pc p = s.msg.pc p := hsame p q (congrArg bound hp) hl
    exact (congrArg MsgPc.lockRef he).trans hl
  case stalling =>
    intro p q hp
    obtain ⟨c, hpc', hno⟩ := hI.stalling p q hp
    have he : t.pc p = s.msg.pc p := hsame p q (congrArg bound hp) (by rw [hpc']; rfl)
    refine ⟨c, he.trans hpc', fun hw => hno (hold ?_ hw)⟩
    exact hI.refs p q (by rw [hpc']; rfl)
  case paid =>
    refine hI.paid.step ?_ (fun r a hr => .inl hr)
    rintro p a ⟨q, d, hp, rfl⟩ ⟨d', hd', hw⟩
    have hp' : s.msg.pc p = .asleep q d := by
      rcases hpc p with hwk | ⟨-, has⟩
      · exact woken_asleep hwk hp
      · exact has q d hp
    have he : (t.pc p).recvCall = (s.msg.pc p).recvCall := by rw [hp', hp]
    refine .inl ⟨⟨q, d, hp', rfl⟩, d', he ▸ hd', hold ?_ hw⟩
    exact hI.refs p q (by rw [hp']; rfl)

variable [DecidableEq P] [DecidableEq A] {c : RecvCall}

omit [DecidableEq A] in
/-- A process goes on to another stage, with the lock or without it, when no wakeup is left undone. -/
theorem LockInv.restage (hI : LockInv s ql nl) {g : LockStage A} {H : A → Option P}
    (hothers : ∀ p', p' ≠ p → ∀ q, (s.stage p').queue = some q → H q.page = some p') (hown : ∀ q, g.queue = some q → H q.page = some p)
    (hent : ∀ q, g = .entered q → (s.msg.pc p).lockRef = some q)
    (hstall : ∀ q, g = .stalling q → ∃ c, s.msg.pc p = .receiving q c ∧ ¬Wanted s.msg.page (nl q.page) c.msgtyp)
    (hdone : ∀ q, s.stage p = .waking q → ∀ p' q' d, s.msg.pc p' = .asleep q' d → q'.page ≠ q.page) :
    LockInv { s with holder := H, stage := update s.stage p g } ql nl := by
  constructor
  case queues => exact hI.queues
  case refs => exact hI.refs
  case sized => exact hI.sized
  case holds =>
    intro p' q hq
    by_cases hp : p' = p
    · subst hp
      exact hown q (by simpa using hq)
    · exact hothers p' hp q (by simpa [hp] using hq)
  case entered =>
    intro p' q hq
    by_cases hp : p' = p
    · subst hp
      exact hent q (by simpa using hq)
    · exact hI.entered p' q (by simpa [hp] using hq)
  case stalling =>
    intro p' q hq
    by_cases hp : p' = p
    · subst hp
      exact hstall q (by simpa using hq)
    · exact hI.stalling p' q (by simpa [hp] using hq)
  case paid =>
    refine hI.paid.step (fun r a ha hr => .inl ⟨ha, hr⟩) ?_
    rintro r a ⟨q, hr, rfl⟩
    by_cases hrp : r = p
    · subst hrp
      right
      rintro p' ⟨q', d, hp', heq⟩
      exact hdone q hr p' q' d hp' heq
    · exact .inl ⟨q, by simpa [hrp] using hr, rfl⟩

omit [DecidableEq P] in
/-- Nobody else has the lock of a page that is given up. -/
theorem LockInv.others_hold (hI : LockInv s ql nl) (hq : (s.stage p).queue = some q) (hp : p' ≠ p) (hq' : (s.stage p').queue = some q') :
    update s.holder q.page none q'.page = some p' := by
  rw [update_of_ne (hI.page_ne hq hq' hp).symm]
  exact hI.holds p' q' hq'

/-- A receiver outside the locks, with nothing for it in its queue, is put to sleep. -/
theorem LockInv.fallAsleep (hI : LockInv s ql nl) (hp : s.msg.pc p = .receiving q c) (hout : s.stage p = .outside)
    (hno : ¬Wanted s.msg.page (nl q.page) c.msgtyp) : LockInv { s with msg := s.msg.setPc p (.asleep q c) } ql nl := by
  have hother : ∀ {p'}, p' ≠ p → (s.msg.setPc p (.asleep q c)).pc p' = s.msg.pc p' := fun hne => by simp [MsgSt.setPc, hne]
  have hself : (s.msg.setPc p (.asleep q c)).pc p = .asleep q c := by simp [MsgSt.setPc]
  have hne : ∀ {p' g}, s.stage p' = g → g ≠ .outside → p' ≠ p := by
    rintro p' g hg hng rfl
    exact hng (hg.symm.trans hout)
  constructor
  case queues =>
    refine hI.queues.quiet rfl rfl rfl fun p' => ?_
    by_cases hpp : p' = p
    · subst hpp
      refine .inr ⟨by rw [hp]; rfl, by rw [hself]; rfl, ?_⟩
      rw [hself]
      exact placeOk_asleep (hp ▸ hI.queues.pcs p')
    · exact .inl (hother hpp)
  case refs =>
    intro p' q' hq'
    by_cases hpp : p' = p
    · subst hpp
      rw [hself] at hq'
      exact hI.refs p' q' (by rw [hp]; exact hq')
    · exact hI.refs p' q' (by rwa [← hother hpp])
  case sized =>
    intro p' d hd
    by_cases hpp : p' = p
    · subst hpp
      rw [hself] at hd
      cases hd
    · exact hI.sized p' d (by rwa [← hother hpp])
  case holds => exact hI.holds
  case entered =>
    intro p' q' hq'
    exact (congrArg MsgPc.lockRef (hother (hne hq' (fun he => by cases he)))).trans (hI.entered p' q' hq')
  case stalling =>
    intro p' q' hq'
    obtain ⟨c', hc', hw⟩ := hI.stalling p' q' hq'
    exact ⟨c', (hother (hne hq' (fun he => by cases he))).trans hc', hw⟩
  case paid =>
    refine hI.paid.step ?_ (fun r a hr => .inl hr)
    rintro p' a ⟨q', d, hp', rfl⟩ ⟨d', hd', hw⟩
    by_cases hpp : p' = p
    · subst hpp
      have he := hself.symm.trans hp'
      cases he
      have hd := (congrArg MsgPc.recvCall hself).symm.trans hd'
      cases hd
      exact absurd hw hno
    · have hsame := hother hpp
      exact .inl ⟨⟨q', d, hsame.symm.trans hp', rfl⟩, d', (congrArg MsgPc.recvCall hsame).symm.trans hd', hw⟩

variable [Fintype A]

/-- A step outside the locks. -/
theorem LockInv.call (hI : LockInv s ql nl) {act : MsgAct P A} {t : MsgSt P A} (hadm : s.admits act = true)
    (hfits : ∀ d, act.sendCall = some d → d.msgsz ≤ NODEROOM) (h : msgStep s.msg act = some t) :
    ∃ ql' nl', LockInv { s with msg := t } ql' nl' := by
  rcases hI.queues.step_outcome h with ⟨ql', nl', hout⟩ | ⟨⟨f, rfl⟩, -⟩
  · refine ⟨ql', nl', hI.keep (hI.queues.outcome hout) (hI.refs.outcome hI.queues ?_ hout) (hI.sized.outcome hfits hout)
      (fun p => ?_) ?_⟩
    · rintro p q rfl
      simp [QueueLockSt.admits] at hadm
    · rcases call_pc hadm h p with hw | ⟨hnone, hs⟩
      · exact .inl hw
      · exact .inr ⟨bound_of_queue hnone, hs⟩
    · intro q k hv hw
      refine wanted_old hI.queues hout ?_ hv hw
      rintro p q₀ f c rfl
      simp [QueueLockSt.admits] at hadm
  · exact ⟨ql, nl, hI.fail f⟩

omit [Fintype A] in
/-- The node is linked, and the wakeup is owed. -/
theorem LockInv.insert (hI : LockInv s ql nl) {c : SendCall} (hst : s.stage p = .entered q) (hp : s.msg.pc p = .appending q f c) :
    ∃ nl', LockInv ({ s with msg := msgsndInsert s.msg p q f c }.setStage p (.waking q)) ql nl' := by
  obtain ⟨Q, hd⟩ := hI.refs.deref (p := p) (q := q) (by rw [hp]; rfl)
  obtain ⟨nl', hout⟩ := hI.queues.outcome_append hp hd
  have hlock : (s.stage p).queue = some q := by
    rw [hst]
    rfl
  have heq := msgsndLink_eq hI.queues hp hd
  have hpage : (msgsndInsert s.msg p q f c).page = (msgsndLink s.msg p q f c).page := by
    rw [heq]
    rfl
  have hother : ∀ {p'}, p' ≠ p → (msgsndInsert s.msg p q f c).pc p' = s.msg.pc p' := msgsndInsert_other
  have hold : ∀ {q' : QueueRef A} {k : Int}, q.page ≠ q'.page → q'.Valid s.msg.page →
      Wanted (msgsndInsert s.msg p q f c).page (nl' q'.page) k → Wanted s.msg.page (nl q'.page) k := by
    intro q' k hne hv hw
    rw [hpage] at hw
    refine wanted_old hI.queues hout ?_ hv hw
    intro p₀ q₀ f₀ c₀ hact hp₀
    cases hact
    rw [hp] at hp₀
    cases hp₀
    exact hne
  refine ⟨nl', ?_⟩
  constructor
  case queues =>
    have hq := hI.queues.outcome hout
    rw [heq] at hq
    exact queueInv_of_wakeup hq
  case refs =>
    have hr : RefsOk (msgsndLink s.msg p q f c) := by
      refine hI.refs.outcome hI.queues ?_ hout
      rintro p₀ q₀ ⟨⟩
    rw [heq] at hr
    exact refsOk_wakeup.mp hr
  case sized =>
    have hz : (msgsndLink s.msg p q f c).Sized := by
      refine hI.sized.outcome ?_ hout
      rintro d ⟨⟩
    rw [heq] at hz
    exact sized_wakeup.mp hz
  case holds =>
    intro p' q' hq'
    by_cases hpp : p' = p
    · subst hpp
      have hqq : q = q' := by simpa [QueueLockSt.setStage, LockStage.queue] using hq'
      subst hqq
      exact hI.holds p' q hlock
    · exact hI.holds p' q' (by simpa [QueueLockSt.setStage, hpp] using hq')
  case entered =>
    intro p' q' hq'
    have hpp : p' ≠ p := by
      rintro rfl
      simp [QueueLockSt.setStage] at hq'
    have hq₀ : s.stage p' = .entered q' := by simpa [QueueLockSt.setStage, hpp] using hq'
    exact (congrArg MsgPc.lockRef (hother hpp)).trans (hI.entered p' q' hq₀)
  case stalling =>
    intro p' q' hq'
    have hpp : p' ≠ p := by
      rintro rfl
      simp [QueueLockSt.setStage] at hq'
    have hq₀ : s.stage p' = .stalling q' := by simpa [QueueLockSt.setStage, hpp] using hq'
    obtain ⟨c', hc', hno⟩ := hI.stalling p' q' hq₀
    have hlock' : (s.stage p').queue = some q' := by
      rw [hq₀]
      rfl
    have hne := hI.page_ne hlock hlock' hpp
    exact ⟨c', (hother hpp).trans hc', fun hw => hno (hold hne (hI.refs p' q' (by rw [hc']; rfl)) hw)⟩
  case paid =>
    refine hI.paid.step ?_ ?_
    · rintro p' a ⟨q', d, hp', rfl⟩ ⟨d', hd', hw⟩
      by_cases hqq : q.page = q'.page
      · exact .inr ⟨p, q, by simp [QueueLockSt.setStage], hqq⟩
      · have hpp : p' ≠ p := by
          rintro rfl
          exact msgsndInsert_self hp hp'
        have hsame := hother hpp
        have hp₀ := hsame.symm.trans hp'
        exact .inl ⟨⟨q', d, hp₀, rfl⟩, d', (congrArg MsgPc.recvCall hsame).symm.trans hd',
          hold hqq (hI.refs p' q' (by rw [hp₀]; rfl)) hw⟩
    · rintro r a ⟨q', hr, rfl⟩
      have hrp : r ≠ p := by
        rintro rfl
        rw [hst] at hr
        cases hr
      exact .inl ⟨q', by simpa [QueueLockSt.setStage, hrp] using hr, rfl⟩

/-- A turn of the loop of the receiver. -/
theorem LockInv.scan (hI : LockInv s ql nl) (hst : s.stage p = .entered q) (hp : s.msg.pc p = .receiving q c)
    (h : queueLockChange s p q = some s') : ∃ nl', LockInv s' ql nl' := by
  obtain ⟨Q, hd⟩ := hI.refs.deref (p := p) (q := q) (by rw [hp]; rfl)
  have hlock : (s.stage p).queue = some q := by
    rw [hst]
    rfl
  -- the stage changes first, and then the queue
  have hstage : ∀ {g : LockStage A}, g.queue = some q → (∀ q', g ≠ .entered q') →
      (∀ q', g = .stalling q' → ∃ c, s.msg.pc p = .receiving q' c ∧ ¬Wanted s.msg.page (nl q'.page) c.msgtyp) →
      LockInv (s.setStage p g) ql nl := by
    intro g hg hent hstall
    refine hI.restage (fun p' _ q' => hI.holds p' q') (fun q' hq' => ?_) (fun q' he => absurd he (hent q')) hstall ?_
    · rw [hg] at hq'
      cases hq'
      exact hI.holds p q hlock
    · intro q' he
      rw [hst] at he
      cases he
  simp only [queueLockChange, hp] at h
  split at h
  · rename_i q' c' hsleep
    cases h
    refine ⟨nl, hstage rfl nofun ?_⟩
    rintro q₀ ⟨⟩
    exact ⟨c, hp, not_wanted_of_asleep hI.queues hd hsleep⟩
  · rename_i hawake
    cases h
    obtain ⟨nl', hout⟩ := hI.queues.outcome_scan hp hd
    have hr : RefsOk (msgrcvScan s.msg p q c) := by
      refine hI.refs.outcome hI.queues ?_ hout
      rintro p₀ q₀ ⟨⟩
    have hz : (msgrcvScan s.msg p q c).Sized := by
      refine hI.sized.outcome ?_ hout
      rintro d ⟨⟩
    refine ⟨nl', (hstage (g := .leaving q) rfl nofun nofun).keep (hI.queues.outcome hout) hr hz (fun p' => ?_)
      (fun hv hw => wanted_old hI.queues hout nofun hv hw)⟩
    by_cases hpp : p' = p
    · subst hpp
      exact .inr ⟨by simp [QueueLockSt.setStage, bound], fun q' d hs => absurd hs (hawake q' d)⟩
    · exact .inl (.inl (msgrcvScan_other hpp))

variable {M : PageMap A}

/-- Every step keeps the invariant. -/
theorem LockInv.step (hI : LockInv s ql nl) {act : QueueLockAct P A} (hok : MessagesFit s act) (h : queueLockStep M s act = some s') :
    ∃ ql' nl', LockInv s' ql' nl' := by
  unfold queueLockStep at h
  split at h
  on_goal 2 => cases h
  cases act with
  | call act =>
    simp only [queueLockMove] at h
    split at h
    · rename_i hadm
      obtain ⟨t, ht, rfl⟩ := Option.map_eq_some_iff.mp h
      rw [spillStep_of_sized M hI.sized] at ht
      exact hI.call hadm (fun d => hok act d rfl) ht
    · cases h
  | acquire p =>
    simp only [queueLockMove] at h
    split at h
    on_goal 2 => cases h
    rename_i q hst href
    split at h
    · cases h
      exact ⟨ql, nl, hI.fail _⟩
    · split at h
      on_goal 2 => cases h
      rename_i hfree
      cases h
      refine ⟨ql, nl, hI.restage (fun p' _ q' hq' => ?_) ?_ ?_ nofun ?_⟩
      · have hhold := hI.holds p' q' hq'
        have hne : q'.page ≠ q.page := by
          intro he
          rw [he, hfree] at hhold
          cases hhold
        simpa [QueueLockSt.setHolder, hne] using hhold
      · rintro q' ⟨⟩
        simp [QueueLockSt.setHolder]
      · rintro q' ⟨⟩
        exact href
      · intro q' he
        have he' := hst.symm.trans he
        cases he'
  | change p =>
    simp only [queueLockMove] at h
    split at h
    on_goal 2 => cases h
    rename_i q hst
    have hent := hI.entered p q hst
    cases hp : s.msg.pc p with
    | appending q' f c =>
      rw [hp] at hent
      cases hent
      simp only [queueLockChange, hp, Option.some.injEq] at h
      subst h
      exact ⟨ql, hI.insert hst hp⟩
    | receiving q' c =>
      rw [hp] at hent
      cases hent
      exact ⟨ql, hI.scan hst hp h⟩
    | _ => simp [hp, MsgPc.lockRef] at hent
  | wakeup p =>
    simp only [queueLockMove] at h
    split at h
    on_goal 2 => cases h
    rename_i q hst
    cases h
    have hwoken : LockInv { s with msg := s.msg.wakeup q.page } ql nl :=
      hI.keep (queueInv_wakeup hI.queues) (refsOk_wakeup.mpr hI.refs) (sized_wakeup.mpr hI.sized)
        (fun p' => .inl (woken_wakeup s.msg q.page p'))
        (fun _ hw => hw)
    refine ⟨ql, nl, hwoken.restage (fun p' _ q' => hI.holds p' q') ?_ nofun nofun ?_⟩
    · rintro q' ⟨⟩
      exact hI.holds p q (by rw [hst]; rfl)
    · intro q' he p' q'' d hs
      have he' := hst.symm.trans he
      cases he'
      exact (asleep_wakeup hs).2
  | sleep p =>
    simp only [queueLockMove] at h
    split at h
    on_goal 2 => cases h
    rename_i q q' c hst hp
    cases h
    obtain ⟨c', hp', hno⟩ := hI.stalling p q hst
    rw [hp] at hp'
    cases hp'
    have hlock : (s.stage p).queue = some q := by
      rw [hst]
      rfl
    have hout : LockInv ((s.setHolder q.page none).setStage p .outside) ql nl := by
      refine hI.restage (fun p' hpp q' => hI.others_hold hlock hpp) nofun nofun nofun ?_
      intro q' he
      rw [hst] at he
      cases he
    exact ⟨ql, nl, hout.fallAsleep hp (by simp [QueueLockSt.setStage]) hno⟩
  | release p =>
    simp only [queueLockMove] at h
    split at h
    on_goal 2 => cases h
    rename_i q hst
    cases h
    refine ⟨ql, nl, hI.restage (fun p' hpp q' => hI.others_hold (by rw [hst]; rfl) hpp) nofun nofun nofun ?_⟩
    intro q' he
    rw [hst] at he
    cases he

/-- The invariant holds in every state of a run in which messages fit their pages. -/
theorem lockInv_of_reach (h : (queueLockSys M).Reach MessagesFit s) : ∃ ql nl, LockInv s ql nl := by
  refine Sys.Reach.invariant (I := fun s => ∃ ql nl, LockInv s ql nl) (fun s hb => ⟨_, _, .boot hb⟩) ?_ h
  rintro s act s' ⟨ql, nl, hI⟩ hok hstep
  exact hI.step hok hstep

omit [DecidableEq P] [DecidableEq A] [Fintype A] in
/-- A sleeper whose queue has a message for it is owed a wakeup by a process that has the lock of the queue. -/
theorem LockInv.not_wanted (hI : LockInv s ql nl) (hp : s.msg.pc p = .asleep q c) (hfree : s.holder q.page = none) :
    ¬Wanted s.msg.page (nl q.page) c.msgtyp := by
  intro hw
  obtain ⟨r, q', hr, hpage⟩ := hI.paid p q.page ⟨q, c, hp, rfl⟩ ⟨c, by rw [hp]; rfl, hw⟩
  have hhold := hI.holds r q' (by rw [hr]; rfl)
  rw [hpage, hfree] at hhold
  cases hhold

end Step

end QueueLockAux

end OsLab
