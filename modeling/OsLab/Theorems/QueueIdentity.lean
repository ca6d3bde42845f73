import OsLab.Lemmas.QueueIds

/-!
# The identity of a message queue

The list of queues is a registry: a queue is created only under a key that no queue of the list has, under the id that comes next, and
leaves by its id. So keys and ids are distinct as long as `next_queue_id` has not come round, and the id of a queue that was removed
is never given again. A message that does not fit the page of its node may be written over the key and the id of a queue.
-/

namespace OsLab

open Function (update update_self update_of_ne)

section Statement

variable {P A : Type*} [DecidableEq P] [DecidableEq A] [Fintype A]

/-- No other process has a pointer to the queue on this page. -/
def AloneOn (s : MsgSt P A) (p : P) (a : A) : Prop := ∀ p', p' ≠ p → ∀ q, (s.pc p').ref = some q → q.page ≠ a

/-- Every call that names this id fails, and changes nothing. -/
structure RefusesId (M : PageMap A) (s : MsgSt P A) (msqid : Int) : Prop where
  msgsnd : ∀ p, s.pc p = .user → ∀ msgp msgsz msgflg sz typ text,
    spillStep M s (.snd p (some msqid) msgp msgsz msgflg sz typ text) = some (s.ret p (-1))
  msgrcv : ∀ p, s.pc p = .user → ∀ msgp msgsz msgtyp msgflg sz,
    spillStep M s (.rcv p (some msqid) msgp msgsz msgtyp msgflg sz) = some (s.ret p (-1))
  msgctl : ∀ p, s.pc p = .user → ∀ cmd, spillStep M s (.ctl p (some msqid) cmd) = some (s.ret p (-1))

/-- What keys and ids are for: they tell the queues of the list apart, `sys_msgget` goes by the key, and `sys_msgctl` by the id. -/
structure QueueIdentity (M : PageMap A) (s : MsgSt P A) : Prop where
  keys : ((listing s).map QueueRow.key).Nodup
  ids : ((listing s).map QueueRow.id).Nodup
  /-- The key is that of a queue. -/
  found : ∀ p, s.pc p = .user → ∀ r ∈ listing s, ∀ msgflg page, ∃ t,
    (spillSys M).run s [.get p (some r.key) (some msgflg) page, .getId p] = some t ∧ t.log = s.log ++ [.ret p r.id] ∧
      listing t = listing s
  /-- It is not, and a queue is to be created. -/
  created : ∀ p, s.pc p = .user → ∀ key, (∀ r ∈ listing s, r.key ≠ key) → ∀ msgflg, hasFlag msgflg IPC_CREAT = true →
    ∀ a, s.page a = .free → ∃ t id, (spillSys M).run s [.get p (some key) (some msgflg) (some a)] = some t ∧
      t.log = s.log ++ [.ret p id] ∧ listing t = ⟨a, id, key, []⟩ :: listing s ∧ ∀ p', MsgEvent.ret p' id ∉ s.log
  /-- It is not, and no queue is to be created, or there is no page for one. -/
  failed : ∀ p, s.pc p = .user → ∀ key, (∀ r ∈ listing s, r.key ≠ key) → ∀ msgflg page,
    hasFlag msgflg IPC_CREAT = false ∨ page = none → ∃ t,
      (spillSys M).run s [.get p (some key) (some msgflg) page] = some t ∧ t.log = s.log ++ [.ret p (-1)] ∧ listing t = listing s
  /-- The queue with the id is removed, and no later call finds it. -/
  removed : ∀ p, s.pc p = .user → ∀ r ∈ listing s, ∃ t,
    (spillSys M).run s [.ctl p (some r.id) (some IPC_RMID), .ctlDrain p, .ctlFree p] = some t ∧ t.log = s.log ++ [.ret p 0] ∧
      listing t = (listing s).filter (·.id ≠ r.id) ∧
      (AloneOn s p r.page → ∀ u, ((spillSys M).after t).Reach LifetimeOk u → u.insts + 1 < 2 ^ 31 → RefusesId M u r.id)

end Statement

namespace QueueIdentityAux

open QueueIdAux

variable {P A : Type*} [DecidableEq P] [DecidableEq A] [Fintype A] {M : PageMap A} {s : MsgSt P A} {ql : List A} {nl : A → List A}
  {a : A} {Q : MsgQueue A} {p : P} {key : Int}

/-! ## One call -/

/-- A step that is not the freeing of a queue, and gives nothing to send. -/
theorem lifetimeOk_of {act : MsgAct P A} (hfree : ∀ p, act ≠ .ctlFree p) (hsend : act.sendCall = none) : LifetimeOk s act where
  alone p q ha := absurd ha (hfree p)
  fits d hd := by
    rw [hsend] at hd
    cases hd

/-- A step of a good state, taken where its process is. -/
theorem step_eq (hg : Good s) (act : MsgAct P A) : spillStep M s act = msgMove s act := by
  rw [spillStep_of_sized M hg.safe.sized, msgStep, hg.safe.noFault]

/-- Keys tell the queues of the list apart. -/
theorem page_of_key (hi : QueueInv s ql nl) (hok : (queueRegistry s).Ok) {b : A} {R : MsgQueue A} (ha : a ∈ ql)
    (hQ : queueAt s.page a = some Q) (hb : b ∈ ql) (hR : queueAt s.page b = some R) (hkey : Q.key = R.key) : a = b := by
  have he := List.inj_on_of_nodup_map hok.keys (mem_entries hi ha hQ) (mem_entries hi hb hR) hkey
  exact congrArg Entry.place he

theorem get_found (hg : Good s) (hok : (queueRegistry s).Ok) (hp : s.pc p = .user) {r : QueueRow A} (hr : r ∈ listing s) (msgflg : Int)
    (page : Option A) : ∃ t, (spillSys M).run s [.get p (some r.key) (some msgflg) page, .getId p] = some t ∧
      t.log = s.log ++ [.ret p r.id] ∧ listing t = listing s := by
  obtain ⟨ql, nl, hi⟩ := hg.queues
  obtain ⟨a, ha, Q, hQ, rfl⟩ := (mem_listing hi).mp hr
  rcases hi.seekQueue (·.key == Q.key) with ⟨l₁, b, l₂, R, hl, hR, htest, heq⟩ | ⟨hnone, -⟩
  · have hba : b = a := page_of_key hi hok (by simp [hl]) hR ha hQ (by simpa using htest)
    subst hba
    have hget : spillStep M s (.get p (some Q.key) (some msgflg) page) = some (s.setPc p (.gotten (s.refTo b))) := by
      rw [step_eq hg]
      simp only [msgMove, hp, sysMsgget, heq]
    have hstep : LifetimeOk s (.get p (some Q.key) (some msgflg) page) := lifetimeOk_of (fun _ he => by cases he) rfl
    have hg' := hg.step hstep hget
    have hd : (s.setPc p (.gotten (s.refTo b))).deref (s.refTo b) = some Q := by
      simp [MsgSt.deref, MsgSt.refTo, MsgSt.setPc, hQ]
    have hid : spillStep M (s.setPc p (.gotten (s.refTo b))) (.getId p) = some ((s.setPc p (.gotten (s.refTo b))).ret p Q.id) := by
      rw [step_eq hg']
      simp only [msgMove, MsgSt.setPc, update_self]
      rw [msggetId]
      simp only [MsgSt.setPc] at hd
      rw [hd]
    refine ⟨(s.setPc p (.gotten (s.refTo b))).ret p Q.id, ?_, rfl, rfl⟩
    simp only [Sys.run, spillSys, hget, hid, Option.bind_some]
  · have := hnone a ha Q hQ
    simp at this

omit [DecidableEq P] [DecidableEq A] in
/-- The search for a key that no queue of the list has. -/
theorem seek_absent (hi : QueueInv s ql nl) (hkey : ∀ r ∈ listing s, r.key ≠ key) :
    seekQueue s.page (·.key == key) s.listHead = .absent := by
  rcases hi.seekQueue (·.key == key) with ⟨l₁, b, l₂, R, hl, hR, htest, -⟩ | ⟨-, heq⟩
  · have hmem := (mem_listing hi).mpr ⟨b, by simp [hl], R, hR, rfl⟩
    exact absurd (by simpa using htest) (hkey _ hmem)
  · exact heq

theorem get_failed (hg : Good s) (hp : s.pc p = .user) (hkey : ∀ r ∈ listing s, r.key ≠ key) {msgflg : Int} {page : Option A}
    (hno : hasFlag msgflg IPC_CREAT = false ∨ page = none) :
    ∃ t, (spillSys M).run s [.get p (some key) (some msgflg) page] = some t ∧ t.log = s.log ++ [.ret p (-1)] ∧
      listing t = listing s := by
  obtain ⟨ql, nl, hi⟩ := hg.queues
  have hget : spillStep M s (.get p (some key) (some msgflg) page) = some (s.ret p (-1)) := by
    rw [step_eq hg]
    simp only [msgMove, hp, sysMsgget, seek_absent hi hkey]
    rcases hno with hflag | rfl
    · simp [hflag]
    · split <;> rfl
  refine ⟨s.ret p (-1), ?_, rfl, rfl⟩
  simp only [Sys.run, spillSys, hget, Option.bind_some]

theorem get_created (hg : Good s) (hlt : s.insts + 1 < 2 ^ 31) (hp : s.pc p = .user) (hkey : ∀ r ∈ listing s, r.key ≠ key) {msgflg : Int}
    (hflag : hasFlag msgflg IPC_CREAT = true) (hfree : s.page a = .free) :
    ∃ t id, (spillSys M).run s [.get p (some key) (some msgflg) (some a)] = some t ∧ t.log = s.log ++ [.ret p id] ∧
      listing t = ⟨a, id, key, []⟩ :: listing s ∧ ∀ p', MsgEvent.ret p' id ∉ s.log := by
  obtain ⟨ql, nl, hi⟩ := hg.queues
  generalize ht : (({ s with page := update s.page a (.queue ⟨s.listHead, s.nextId, key, none, none, s.insts⟩),
                             listHead := some a, nextId := int32 (s.nextId + 1), insts := s.insts + 1 } : MsgSt P A).ret p s.nextId) = t
  have hget : spillStep M s (.get p (some key) (some msgflg) (some a)) = some t := by
    rw [step_eq hg]
    simp only [msgMove, hp, sysMsgget, seek_absent hi hkey, hflag, hfree, Bool.not_true, Bool.false_eq_true, ↓reduceIte, ht]
  have hout : Outcome s ql nl (.get p (some key) (some msgflg) (some a)) t (a :: ql) (update nl a []) :=
    ht ▸ .create key hp hfree
  have hi' := hi.outcome hout
  have hpage : t.page = update s.page a (.queue ⟨s.listHead, s.nextId, key, none, none, s.insts⟩) := by rw [← ht]; rfl
  have hmail := hi.mailMoves hg.fresh hout
  have hne : ∀ b ∈ ql, b ≠ a := by
    rintro b hb rfl
    obtain ⟨Q, hQ⟩ := hi.heap.queueAt_of_mem hb
    simp [queueAt, hfree] at hQ
  have hview : ∀ b ∈ ql, mailView t b = mailView s b := by
    have hinsts : t.insts ≠ s.insts := by
      rw [← ht]
      exact Nat.succ_ne_self _
    simp only [mailAct, hinsts, ↓reduceIte, Option.map_some, MailMoves, Mail.step, Option.ite_none_right_eq_some,
      Option.some.injEq] at hmail
    intro b hb
    rw [← hmail.2, update_of_ne (hne b hb)]
  have hQa : queueAt t.page a = some ⟨s.listHead, s.nextId, key, none, none, s.insts⟩ := by simp [hpage]
  have hempty : messages t a = [] := by
    rw [hi'.messages_eq hQa, update_self, List.filterMap_nil]
  have hrows : ∀ b ∈ ql, rowOf t b = rowOf s b := by
    intro b hb
    have hm := messages_of_mailView hi hi' hb (List.mem_cons_of_mem a hb) (hview b hb)
    simp [rowOf, hpage, hne b hb, hm]
  refine ⟨t, s.nextId, ?_, by rw [← ht]; rfl, ?_, fun p' hret => ?_⟩
  · simp only [Sys.run, spillSys, hget, Option.bind_some]
  · have hnew : rowOf t a = some ⟨a, s.nextId, key, []⟩ := by simp only [rowOf, hQa, Option.map_some, hempty]
    rw [listing_eq hi', listing_eq hi, List.filterMap_cons_some hnew, List.filterMap_congr hrows]
  · have hle := hg.ids.rets p' _ hret
    rw [hg.ids.nextId, int32_of_lt (by omega) (by omega)] at hle
    omega

/-! ## Removal -/

/-- Ids tell the queues apart. -/
theorem page_of_id (hg : Good s) (hlt : s.insts + 1 < 2 ^ 31) (hi : QueueInv s ql nl) {b : A} {R : MsgQueue A}
    (hQ : queueAt s.page a = some Q) (hR : queueAt s.page b = some R) (hid : Q.id = R.id) : a = b := by
  rw [hg.ids.id a Q hQ, hg.ids.id b R hR] at hid
  exact hi.heap.inst_inj hQ hR (int32_injOn (hi.heap.inst_lt hQ) (hi.heap.inst_lt hR) hlt hid)

/-- The lookup finds the queue with the id, wherever it is in the list. -/
theorem ctl_found (hg : Good s) (hlt : s.insts + 1 < 2 ^ 31) (hi : QueueInv s ql nl) (ha : a ∈ ql) (hQ : queueAt s.page a = some Q)
    (p : P) : ∃ l₁ l₂, ql = l₁ ++ a :: l₂ ∧
      sysMsgctl s p (some Q.id) (some IPC_RMID) = (msgctlUnlink s l₁.getLast? Q.next).setPc p (.removing ⟨a, Q.inst⟩) := by
  rcases hi.seekQueue (·.id == Q.id) with ⟨l₁, b, l₂, R, hl, hR, htest, heq⟩ | ⟨hnone, -⟩
  · have hba : b = a := page_of_id hg hlt hi hR hQ (by simpa using htest)
    subst hba
    refine ⟨l₁, l₂, hl, ?_⟩
    simp [sysMsgctl, MsgSt.lookup, heq, nextQueue, MsgSt.refTo, hQ]
  · have := hnone a ha Q hQ
    simp at this

omit [DecidableEq P] [Fintype A] in
theorem msgctlUnlink_eq (s : MsgSt P A) (previousnode next : Option A) :
    ∃ h hd, msgctlUnlink s previousnode next = { s with page := h, listHead := hd } := by
  cases previousnode with
  | none => exact ⟨s.page, next, rfl⟩
  | some b => exact ⟨setNext s.page b next, s.listHead, rfl⟩

omit [DecidableEq P] in
/-- The boxes, and with them the listing, stay as they are. -/
theorem listing_kept {s' : MsgSt P A} {nl' : A → List A} (hi : QueueInv s ql nl) (hi' : QueueInv s' ql nl')
    (hq : QueuesFrom s.page s'.page) (hview : mailView s' = mailView s) : listing s' = listing s := by
  rw [listing_from hi' hq, listing_eq hi]
  intro b hb
  exact messages_of_mailView hi hi' hb hb (congrFun hview b)

/-- One queue has left the list. -/
theorem listing_unlist {s' : MsgSt P A} (hg : Good s) (hlt : s.insts + 1 < 2 ^ 31) {l₁ l₂ : List A} (hi : QueueInv s ql nl)
    (hi' : QueueInv s' (l₁ ++ l₂) nl) (hl : ql = l₁ ++ a :: l₂) (hQ : queueAt s.page a = some Q) (hq : QueuesFrom s.page s'.page)
    (hview : ∀ b ∈ l₁ ++ l₂, mailView s' b = mailView s b) : listing s' = (listing s).filter (·.id ≠ Q.id) := by
  have hsub : ∀ b ∈ l₁ ++ l₂, b ∈ ql := by
    intro b hb
    rw [hl]
    rcases List.mem_append.mp hb with hb | hb
    · exact List.mem_append_left _ hb
    · exact List.mem_append_right _ (List.mem_cons_of_mem a hb)
  rw [listing_from hi' hq (fun b hb => messages_of_mailView hi hi' (hsub b hb) hb (hview b hb)), listing_eq hi, hl]
  refine (filter_filterMap_middle (fun r hr => ?_) fun b hb r hr => ?_).symm
  · obtain ⟨R, hR, rfl⟩ := Option.map_eq_some_iff.mp hr
    rw [hQ] at hR
    cases hR
    simp
  · obtain ⟨R, hR, rfl⟩ := Option.map_eq_some_iff.mp hr
    have hne : R.id ≠ Q.id := fun he => ne_of_split hi hl hb (page_of_id hg hlt hi hR hQ he)
    simpa using hne

/-- An id that no queue of the list has is refused. -/
theorem refuses (hg : Good s) (hi : QueueInv s ql nl) {msqid : Int}
    (hno : ∀ a ∈ ql, ∀ Q, queueAt s.page a = some Q → Q.id ≠ msqid) : RefusesId M s msqid := by
  have hlookup : ∀ p found, s.lookup p msqid found = s.ret p (-1) := by
    intro p found
    rcases hi.seekQueue (·.id == msqid) with ⟨l₁, b, l₂, R, hl, hR, htest, -⟩ | ⟨-, heq⟩
    · exact absurd (by simpa using htest) (hno b (by simp [hl]) R hR)
    · rw [MsgSt.lookup, heq]
  constructor
  · intro p hp msgp msgsz msgflg sz typ text
    rw [step_eq hg]
    simp only [msgMove, hp, sysMsgsnd]
    cases msgsz with
    | none => rfl
    | some n =>
      cases msgflg with
      | none => rfl
      | some flg =>
        dsimp only
        split
        · rfl
        · rw [hlookup]
  · intro p hp msgp msgsz msgtyp msgflg sz
    rw [step_eq hg]
    simp only [msgMove, hp, sysMsgrcv]
    cases msgsz with
    | none => rfl
    | some n =>
      cases msgtyp with
      | none => rfl
      | some typ =>
        cases msgflg with
        | none => rfl
        | some flg =>
          dsimp only
          rw [hlookup]
  · intro p hp cmd
    rw [step_eq hg]
    simp only [msgMove, hp, sysMsgctl]
    cases cmd with
    | none => rfl
    | some cmd =>
      dsimp only
      split
      · rfl
      · rw [hlookup]

/-- The queue with the id is removed: it is taken off the list, then its nodes are freed, and then its page. -/
theorem ctl_removes (hs : (spillSys M).Reach LifetimeOk s) (hlt : s.insts + 1 < 2 ^ 31) (hp : s.pc p = .user) (hi : QueueInv s ql nl)
    (ha : a ∈ ql) (hQ : queueAt s.page a = some Q) :
    ∃ t, (spillSys M).run s [.ctl p (some Q.id) (some IPC_RMID), .ctlDrain p, .ctlFree p] = some t ∧ t.log = s.log ++ [.ret p 0] ∧
      listing t = (listing s).filter (·.id ≠ Q.id) ∧ t.insts = s.insts ∧
      (AloneOn s p a → (spillSys M).Reach LifetimeOk t) := by
  have hg := good_of_reach hs
  obtain ⟨l₁, l₂, hl, hctl⟩ := ctl_found hg hlt hi ha hQ p
  obtain ⟨h₁, hd, hunlink⟩ := msgctlUnlink_eq s l₁.getLast? Q.next
  have hout₁ := hi.outcome_unlist hp hl hQ (some Q.id) (some IPC_RMID)
  generalize ht₁ : (msgctlUnlink s l₁.getLast? Q.next).setPc p (.removing ⟨a, Q.inst⟩) = t₁ at hctl hout₁
  have hstep₁ : spillStep M s (.ctl p (some Q.id) (some IPC_RMID)) = some t₁ := by
    rw [step_eq hg]
    simp only [msgMove, hp, hctl]
  have hs₁ : (spillSys M).Reach LifetimeOk t₁ :=
    .step (.ctl p (some Q.id) (some IPC_RMID)) hs (lifetimeOk_of (fun _ he => by cases he) rfl) hstep₁
  have hg₁ := good_of_reach hs₁
  have hi₁ := hi.outcome hout₁
  have hpc₁ : t₁.pc p = .removing ⟨a, Q.inst⟩ := by simp [← ht₁, MsgSt.setPc]
  obtain ⟨Q₁, hd₁⟩ := hg₁.safe.refs.deref (p := p) (q := ⟨a, Q.inst⟩) (by rw [hpc₁]; rfl)
  obtain ⟨h₂, heq₂, hout₂⟩ := hi₁.outcome_drain hpc₁ hd₁
  generalize ht₂ : msgctlDrain t₁ p ⟨a, Q.inst⟩ = t₂ at heq₂ hout₂
  have hpc₂ : t₂.pc p = .freeing ⟨a, Q.inst⟩ := by simp [heq₂, MsgSt.setPc]
  have hstep₂ : spillStep M t₁ (.ctlDrain p) = some t₂ := by
    rw [step_eq hg₁]
    simp only [msgMove, hpc₁, ht₂]
  have hs₂ : (spillSys M).Reach LifetimeOk t₂ := .step (.ctlDrain p) hs₁ (lifetimeOk_of (fun _ he => by cases he) rfl) hstep₂
  have hg₂ := good_of_reach hs₂
  have hi₂ := hi₁.outcome hout₂
  obtain ⟨Q₂, hd₂⟩ := hg₂.safe.refs.deref (p := p) (q := ⟨a, Q.inst⟩) (by rw [hpc₂]; rfl)
  have hout₃ : Outcome t₂ (l₁ ++ l₂) (update nl a []) (.ctlFree p) (msgctlFree t₂ p ⟨a, Q.inst⟩) (l₁ ++ l₂)
      (update nl a []) := outcome_free hpc₂ hd₂
  have hfree : msgctlFree t₂ p ⟨a, Q.inst⟩ = ({ t₂ with page := update t₂.page a .free } : MsgSt P A).ret p 0 := by
    rw [msgctlFree, hd₂]
  generalize ht₃ : msgctlFree t₂ p ⟨a, Q.inst⟩ = t₃ at hout₃ hfree
  have hstep₃ : spillStep M t₂ (.ctlFree p) = some t₃ := by
    rw [step_eq hg₂]
    simp only [msgMove, hpc₂, ht₃]
  have hi₃ := hi₂.outcome hout₃
  refine ⟨t₃, ?_, ?_, ?_, ?_, fun halone => ?_⟩
  · simp only [Sys.run, spillSys, hstep₁, hstep₂, hstep₃, Option.bind_some]
  · rw [hfree, heq₂, ← ht₁, hunlink]
    rfl
  · have hview₁ : mailView t₁ = update (mailView s) a none := by
      have hmail := hi.mailMoves hg.fresh hout₁
      simp only [mailAct, hpc₁, MailMoves, Mail.step, Option.some.injEq] at hmail
      exact hmail.symm
    have hview₂ : mailView t₂ = mailView t₁ := hi₁.mailMoves hg₁.fresh hout₂
    have hview₃ : mailView t₃ = mailView t₂ := hi₂.mailMoves hg₂.fresh hout₃
    rw [listing_kept hi₂ hi₃ (queuesFrom_of_outcome hout₃ (by rw [hfree]; rfl)) hview₃,
      listing_kept hi₁ hi₂ (queuesFrom_of_outcome hout₂ (by rw [heq₂]; rfl)) hview₂]
    refine listing_unlist hg hlt hi hi₁ hl hQ (queuesFrom_of_outcome hout₁ (by rw [← ht₁, hunlink]; rfl)) fun b hb => ?_
    rw [hview₁, update_of_ne (ne_of_split hi hl hb)]
  · rw [hfree, heq₂, ← ht₁, hunlink]
    rfl
  · refine .step (.ctlFree p) hs₂ ⟨?_, (fun _ he => by cases he)⟩ hstep₃
    intro p₀ q₀ hact hpc p' hp' q' hq'
    cases hact
    rw [hpc₂] at hpc
    cases hpc
    refine halone p' hp' q' ?_
    rw [heq₂, ← ht₁, hunlink] at hq'
    simp only [MsgSt.setPc, ne_eq, hp', not_false_eq_true, update_of_ne] at hq'
    rw [(woken_wakeup _ _ p').ref] at hq'
    simpa [hp'] using hq'

/-- The number of a queue that the listing has lost is gone from the registry. -/
theorem gone_of_listing {t : MsgSt P A} (hg : Good s) (ht : Good t) (hi : QueueInv s ql nl) (hQ : queueAt s.page a = some Q)
    (hlist : listing t = (listing s).filter (·.id ≠ Q.id)) (hinsts : t.insts = s.insts) : (queueRegistry t).Gone Q.inst := by
  refine ⟨?_, fun e he hnum => ?_⟩
  · rw [queueRegistry, hinsts]
    exact hi.heap.inst_lt hQ
  · obtain ⟨ql', nl', hi'⟩ := ht.queues
    rw [queueRegistry_eq hi'] at he
    obtain ⟨b, hb, hbe⟩ := List.mem_filterMap.mp he
    obtain ⟨R, hR, rfl⟩ := Option.map_eq_some_iff.mp hbe
    have hrow := (mem_listing hi').mpr ⟨b, hb, R, hR, rfl⟩
    rw [hlist, List.mem_filter] at hrow
    have hid : R.id ≠ Q.id := by simpa using hrow.2
    have hnum : R.inst = Q.inst := hnum
    rw [ht.ids.id b R hR, hg.ids.id a Q hQ, hnum] at hid
    exact hid rfl

/-- A number that is gone is that of no id that a call could name. -/
theorem refuses_of_gone (hg : Good s) (hlt : s.insts + 1 < 2 ^ 31) {i : Nat} (hgone : (queueRegistry s).Gone i) :
    RefusesId M s (int32 (i + 1)) := by
  obtain ⟨ql, nl, hi⟩ := hg.queues
  refine refuses hg hi fun a ha Q hQ hid => ?_
  rw [hg.ids.id a Q hQ] at hid
  have hnum : Q.inst = i := int32_injOn (hi.heap.inst_lt hQ) hgone.1 hlt hid
  exact hgone.2 _ (mem_entries hi ha hQ) hnum

end QueueIdentityAux

open QueueIdAux QueueIdentityAux

/-- In every state of every run of the message calls, by any processes, in which queues are freed only while no other process has a
pointer to them, messages fit their pages, and fewer than `2 ^ 31 - 1` queues have been created, keys and ids are the identity of the
queues. -/
theorem queue_identity {P A : Type*} [DecidableEq P] [DecidableEq A] [Fintype A] {M : PageMap A} {s : MsgSt P A}
    (hs : (spillSys M).Reach LifetimeOk s) (hlt : s.insts + 1 < 2 ^ 31) : QueueIdentity M s := by
  have hg := good_of_reach hs
  have hok := Registry.ok_of_reachable (registry_reachable hs)
  constructor
  case keys =>
    rw [listing_keys]
    exact hok.keys
  case ids =>
    rw [listing_ids (g := fun n => int32 (n + 1)) hg.ids.id]
    refine List.Nodup.map_on (fun e he e' he' hid => ?_) hok.nums.of_map
    have hnum : e.num = e'.num := int32_injOn (hok.old e he) (hok.old e' he') hlt hid
    exact List.inj_on_of_nodup_map hok.nums he he' hnum
  case found => exact fun p hp r hr msgflg page => get_found hg hok hp hr msgflg page
  case created => exact fun p hp key hkey msgflg hflag a hfree => get_created hg hlt hp hkey hflag hfree
  case failed => exact fun p hp key hkey msgflg page hno => get_failed hg hp hkey hno
  case removed =>
    intro p hp r hr
    obtain ⟨ql, nl, hi⟩ := hg.queues
    obtain ⟨a, ha, Q, hQ, rfl⟩ := (mem_listing hi).mp hr
    obtain ⟨t, hrun, hlog, hlist, hinsts, hreach⟩ := ctl_removes hs hlt hp hi ha hQ
    refine ⟨t, hrun, hlog, hlist, fun halone u hu hfew => ?_⟩
    have ht := hreach halone
    have hgone := gone_of_listing hg (good_of_reach ht) hi hQ hlist hinsts
    have href : RefusesId M u (int32 (Q.inst + 1)) :=
      refuses_of_gone (good_of_reach (ht.after hu)) hfew (hgone.stays (registry_after ht hu))
    rwa [← hg.ids.id a Q hQ] at href

/-- Process 0 creates two queues. -/
def twoQueues : List (MsgAct (Fin 2) (Fin 4)) :=
  [.get 0 (some 5) (some 0o1000) (some 3), .get 0 (some 6) (some 0o1000) (some 2)]

/-- The state after that. -/
def twoQueuesState : MsgSt (Fin 2) (Fin 4) :=
  ((spillSys samplePages).run (.start (Fin 2) (Fin 4)) twoQueues).get (by decide +kernel)

theorem queue_identity_two : listing twoQueuesState = [⟨2, 2, 6, []⟩, ⟨3, 1, 5, []⟩] ∧ QueueIdentity samplePages twoQueuesState := by
  have hreach : (spillSys samplePages).Reach LifetimeOk twoQueuesState := by
    refine Sys.Reach.run (.init (MsgSt.start_boot _ _)) (fun act ha t => ?_) (Option.some_get _).symm
    simp only [twoQueues, List.mem_cons, List.not_mem_nil, or_false] at ha
    rcases ha with rfl | rfl
    · exact lifetimeOk_of (fun _ he => by cases he) rfl
    · exact lifetimeOk_of (fun _ he => by cases he) rfl
  exact ⟨by decide +kernel, queue_identity hreach (by decide +kernel)⟩

/-- Process 0 sends 4148 bytes to the first of the two queues. The node is on the page before that of the other one, and the last 64
bytes are written over it: they point `next` to where it was, leave the lock open, and put 1 for `id` and 5 for `key`. -/
def spillsOverQueue : List (MsgAct (Fin 2) (Fin 4)) :=
  twoQueues ++
    [.snd 0 (some 1) (some 0) (some 4148) (some 0) 8192 7
        fun j => if j = 4085 then 0x30 else if j = 4086 then 0x40 else if j = 4087 then 0x80 else if j = 4140 then 1
          else if j = 4144 then 5 else 0,
      .sndAlloc 0 (some 1) (fun _ => 0), .sndAppend 0]

/-- The state after that. -/
def spillsOverQueueState : MsgSt (Fin 2) (Fin 4) :=
  ((spillSys samplePages).run (.start (Fin 2) (Fin 4)) spillsOverQueue).get (by decide +kernel)

/-- Two queues of the list have the same key and the same id. -/
theorem queue_identity_lost : (spillSys samplePages).Reachable spillsOverQueueState ∧ spillsOverQueueState.fault = none ∧
    spillsOverQueueState.insts = 2 ∧ (listing spillsOverQueueState).map (fun r => (r.page, r.id, r.key)) = [(2, 1, 5), (3, 1, 5)] :=
  ⟨Sys.reachable_of_run (MsgSt.start_boot _ _) (Option.some_get _).symm, by decide +kernel, by decide +kernel, by decide +kernel⟩

end OsLab
