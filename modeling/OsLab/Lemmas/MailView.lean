import OsLab.Lemmas.QueueRuns
import OsLab.MailView

/-!
# The boxes along a run

In a state of the invariant the walks along the pointers are the lists of the invariant, and every outcome of a step is the
step of the boxes that `mailAct` names.
-/

namespace OsLab

open Function (update update_self update_of_ne)

section Record

variable {P A : Type*} (log l : List (MsgEvent P)) (i : Nat) {h : A → Page A}

theorem sentTo_append : sentTo i (log ++ l) = sentTo i log ++ sentTo i l := List.filterMap_append

theorem takenFrom_append : takenFrom i (log ++ l) = takenFrom i log ++ takenFrom i l := List.filterMap_append

variable {l} in
/-- Returns are neither messages sent nor messages taken. -/
theorem sentTo_of_ret (hl : ∀ e ∈ l, e.IsRet h) : sentTo i l = [] := by
  refine List.filterMap_eq_nil_iff.mpr fun e he => ?_
  have := hl e he
  cases e <;> simp_all [MsgEvent.IsRet]

variable {l} in
theorem takenFrom_of_ret (hl : ∀ e ∈ l, e.IsRet h) : takenFrom i l = [] := by
  refine List.filterMap_eq_nil_iff.mpr fun e he => ?_
  have := hl e he
  cases e <;> simp_all [MsgEvent.IsRet]

end Record

variable {P A : Type*} [Fintype A] {s s' : MsgSt P A} {ql ql' : List A} {nl nl' : A → List A}
  {a : A} {Q : MsgQueue A} {act : MsgAct P A} {p : P} {q : QueueRef A}

section Walk

variable (hi : QueueInv s ql nl)

include hi

theorem QueueInv.listed_eq : listed s = ql := hi.heap.list.walk_eq hi.heap.list.length_le_card

/-- The walk over a queue finds its nodes. -/
theorem QueueInv.queuedNodes_eq (hQ : queueAt s.page a = some Q) : queuedNodes s a = nl a := by
  rw [queuedNodes, hQ]
  exact (hi.heap.nodes hQ).walk_eq (hi.heap.nodes hQ).length_le_card

theorem QueueInv.messages_eq (hQ : queueAt s.page a = some Q) :
    messages s a = (nl a).filterMap fun f => (nodeAt s.page f).map MsgNode.msg := by
  rw [messages, hi.queuedNodes_eq hQ]

variable [DecidableEq A]

/-- A listed queue is a mailbox with what was sent and taken. -/
theorem QueueInv.mailView_of_mem (ha : a ∈ ql) (hQ : queueAt s.page a = some Q) :
    mailView s a = some ⟨messages s a, sentTo Q.inst s.log, takenFrom Q.inst s.log⟩ := by
  rw [mailView, hi.listed_eq, if_pos ha, hQ, Option.map_some]

theorem QueueInv.mailView_of_not_mem (ha : a ∉ ql) : mailView s a = none := by
  rw [mailView, hi.listed_eq, if_neg ha]

end Walk

variable [DecidableEq A]

/-- A box that keeps its nodes, with the messages in them, and its part of the record. -/
theorem mailView_congr (hi : QueueInv s ql nl) (hi' : QueueInv s' ql' nl') {b : A} (hmem : b ∈ ql' ↔ b ∈ ql)
    (hbox : ∀ Q, b ∈ ql → queueAt s.page b = some Q → ∃ R, queueAt s'.page b = some R ∧ R.inst = Q.inst ∧ nl' b = nl b ∧
      (∀ f ∈ nl b, (nodeAt s'.page f).map MsgNode.msg = (nodeAt s.page f).map MsgNode.msg) ∧
      sentTo Q.inst s'.log = sentTo Q.inst s.log ∧ takenFrom Q.inst s'.log = takenFrom Q.inst s.log) :
    mailView s' b = mailView s b := by
  by_cases hb : b ∈ ql
  · obtain ⟨Q, hQ⟩ := hi.heap.queueAt_of_mem hb
    obtain ⟨R, hR, hinst, hnl, hmsg, hsent, htaken⟩ := hbox Q hb hQ
    rw [hi.mailView_of_mem hb hQ, hi'.mailView_of_mem (hmem.mpr hb) hR, hinst, hsent, htaken, hi.messages_eq hQ,
      hi'.messages_eq hR, hnl]
    rw [List.filterMap_congr hmsg]
  · rw [hi.mailView_of_not_mem hb, hi'.mailView_of_not_mem (hmem.not.mpr hb)]

/-- The record says nothing yet of queues that are not created. -/
def LogFresh (s : MsgSt P A) : Prop := ∀ i, s.insts ≤ i → sentTo i s.log = [] ∧ takenFrom i s.log = []

/-- What a receiver of a type wants, in the words of the code. -/
theorem wants_wantOf (t : Int) (m : Msg) : wants Msg.typ (wantOf t) m = true ↔ t = 0 ∨ m.typ = t := by
  unfold wantOf
  split <;> simp_all [wants]

omit [Fintype A] [DecidableEq A] in
/-- A node that `sys_msgsnd` fills holds the message of the caller. -/
theorem msg_node (c : SendCall) (inst : Nat) (junk : Nat → UInt8) : (c.node inst junk : MsgNode A).msg = c.msg := by
  simp only [MsgNode.msg, SendCall.node, SendCall.msg, Msg.mk.injEq, true_and]
  refine List.map_congr_left fun k hk => ?_
  have hlt : (k : Int) < c.msgsz := by
    have := List.mem_range.mp hk
    omega
  rw [if_pos hlt]

omit [DecidableEq A] [Fintype A] in
/-- The messages of nodes that are not wanted. -/
theorem not_wants {l : List A} {t : Int}
    (hl : ∀ f ∈ l, ∀ n, nodeAt s.page f = some n → ¬(t = 0 ∨ n.msgtyp = t)) :
    ∀ m ∈ l.filterMap fun f => (nodeAt s.page f).map MsgNode.msg, ¬wants Msg.typ (wantOf t) m = true := by
  intro m hm
  obtain ⟨f, hf, hfm⟩ := List.mem_filterMap.mp hm
  obtain ⟨n, hn, rfl⟩ := Option.map_eq_some_iff.mp hfm
  rw [wants_wantOf]
  exact hl f hf n hn

section Moves

variable (hi : QueueInv s ql nl)

include hi

/-- A mute step is one that the boxes do not see. -/
theorem QueueInv.mailAct_of_mute (hinsts : s'.insts = s.insts) (mute : Mute s s' nl act) : mailAct s s' act = none := by
  cases act with
  | get p key msgflg page => simp only [mailAct, hinsts, ↓reduceIte]
  | sndAppend p => exact mute.elim
  | rcvScan p =>
    simp only [mailAct]
    split
    · rename_i q c hp
      split
      · rename_i hq
        rw [hi.listed_eq] at hq
        obtain ⟨Q, hQ⟩ := hi.heap.queueAt_of_mem hq
        have hnone := not_wants (mute q c hp)
        rw [Option.map_eq_none_iff, hi.messages_eq hQ, List.find?_eq_none]
        exact hnone
      · rfl
    · rfl
  | ctl p msqid cmd =>
    simp only [mailAct]
    split
    · rename_i q hp
      exact absurd hp (mute q)
    · rfl
  | _ => rfl

/-- A box of the list whose nodes and part of the record the step does not touch. -/
theorem QueueInv.mailView_relinked {h : A → Page A} {b : A} {hd tl : Option A} {l : List A} (hi' : QueueInv s' ql (update nl a l))
    (hQ : queueAt s.page a = some Q) (hpage : s'.page = h) (rel : Relinked s.page h a hd tl (nl a))
    (hsent : ∀ i, i ≠ Q.inst → sentTo i s'.log = sentTo i s.log) (htaken : ∀ i, i ≠ Q.inst → takenFrom i s'.log = takenFrom i s.log)
    (hb : b ≠ a) : mailView s' b = mailView s b := by
  refine mailView_congr hi hi' Iff.rfl fun R _ hR => ?_
  have hinst : R.inst ≠ Q.inst := fun he => hb (hi.heap.inst_inj hR hQ he)
  subst hpage
  exact ⟨R, by rw [rel.queue_eq hb, hR], rfl, update_of_ne hb _ _, fun f _ => rel.msg_eq f, hsent _ hinst,
    htaken _ hinst⟩

/-- `sys_msgsnd` puts its message into the box. -/
theorem QueueInv.mail_append {f : A} {c : SendCall} {hd tl : Option A} (hi' : QueueInv s' ql (update nl q.page (nl q.page ++ [f])))
    (pc : s.pc p = .appending q f c) (queue : queueAt s.page q.page = some Q) (inst : Q.inst = q.inst)
    (rel : Relinked s.page s'.page q.page hd tl (nl q.page)) (log : s'.log = s.log ++ [.sent p q.inst c.msg, .ret p 0]) :
    MailMoves (mailView s) (mailView s') (mailAct s s' (.sndAppend p)) := by
  have hsent : ∀ i, sentTo i s'.log = sentTo i s.log ++ if q.inst = i then [c.msg] else [] := by
    intro i
    rw [log, sentTo_append]
    by_cases hqi : q.inst = i <;> simp [sentTo, hqi]
  have htaken : ∀ i, takenFrom i s'.log = takenFrom i s.log := by
    intro i
    rw [log, takenFrom_append]
    simp [takenFrom]
  have hother : ∀ {b}, b ≠ q.page → mailView s' b = mailView s b := by
    intro b hb
    refine hi.mailView_relinked hi' queue rfl rel (fun i hne => ?_) (fun i _ => htaken i) hb
    rw [hsent, if_neg (fun he : q.inst = i => hne (he.symm.trans inst.symm)), List.append_nil]
  simp only [mailAct, pc, hi.listed_eq]
  by_cases hq : q.page ∈ ql
  · obtain ⟨R, hR, -, hRi, -⟩ := rel.queue_some queue
    obtain ⟨junk, hf⟩ := (hi.pcs p).filled pc
    have hmsgs : messages s' q.page = messages s q.page ++ [c.msg] := by
      rw [hi'.messages_eq hR, hi.messages_eq queue, update_self, List.filterMap_append]
      congr 1
      · exact List.filterMap_congr fun g _ => rel.msg_eq g
      · rw [List.filterMap_cons, rel.msg_eq, hf]
        simp [msg_node]
    rw [if_pos hq]
    simp only [MailMoves, Mail.step, hi.mailView_of_mem hq queue, Option.map_some, Option.some.injEq]
    funext b
    by_cases hb : b = q.page
    · subst hb
      rw [update_self, hi'.mailView_of_mem hq hR, hmsgs, hRi, hsent, htaken, if_pos inst.symm]
      rfl
    · rw [update_of_ne hb, hother hb]
  · rw [if_neg hq]
    funext b
    by_cases hb : b = q.page
    · subst hb
      rw [hi.mailView_of_not_mem hq, hi'.mailView_of_not_mem hq]
    · exact hother hb

/-- `sys_msgrcv` takes the first message that it wants out of the box. -/
theorem QueueInv.mail_unlink {c : RecvCall} {l₁ l₂ : List A} {f : A} {n : MsgNode A} {hd tl : Option A}
    (hi' : QueueInv s' ql (update nl q.page (l₁ ++ l₂))) (pc : s.pc p = .receiving q c) (queue : queueAt s.page q.page = some Q)
    (inst : Q.inst = q.inst) (split : nl q.page = l₁ ++ f :: l₂) (node : nodeAt s.page f = some n)
    (wanted : c.msgtyp = 0 ∨ n.msgtyp = c.msgtyp)
    (first : ∀ g ∈ l₁, ∀ m, nodeAt s.page g = some m → ¬(c.msgtyp = 0 ∨ m.msgtyp = c.msgtyp))
    (rel : Relinked s.page s'.page q.page hd tl (nl q.page)) (log : s'.log = s.log ++ [.took p q.inst c n.msg]) :
    MailMoves (mailView s) (mailView s') (mailAct s s' (.rcvScan p)) := by
  have hsent : ∀ i, sentTo i s'.log = sentTo i s.log := by
    intro i
    rw [log, sentTo_append]
    simp [sentTo]
  have htaken : ∀ i, takenFrom i s'.log = takenFrom i s.log ++ if q.inst = i then [n.msg] else [] := by
    intro i
    rw [log, takenFrom_append]
    by_cases hqi : q.inst = i <;> simp [takenFrom, hqi]
  have hother : ∀ {b}, b ≠ q.page → mailView s' b = mailView s b := by
    intro b hb
    refine hi.mailView_relinked hi' queue rfl rel (fun i _ => hsent i) (fun i hne => ?_) hb
    rw [htaken, if_neg (fun he : q.inst = i => hne (he.symm.trans inst.symm)), List.append_nil]
  simp only [mailAct, pc, hi.listed_eq]
  by_cases hq : q.page ∈ ql
  · obtain ⟨R, hR, -, hRi, -⟩ := rel.queue_some queue
    have hmsgs : messages s q.page = (l₁.filterMap fun f => (nodeAt s.page f).map MsgNode.msg) ++
        n.msg :: l₂.filterMap fun f => (nodeAt s.page f).map MsgNode.msg := by
      rw [hi.messages_eq queue, split, List.filterMap_append, List.filterMap_cons, node]
      rfl
    have hmsgs' : messages s' q.page = (l₁.filterMap fun f => (nodeAt s.page f).map MsgNode.msg) ++
        l₂.filterMap fun f => (nodeAt s.page f).map MsgNode.msg := by
      rw [hi'.messages_eq hR, update_self, ← List.filterMap_append]
      exact List.filterMap_congr fun g _ => rel.msg_eq g
    have hnot := not_wants first
    have hw : wants Msg.typ (wantOf c.msgtyp) n.msg = true := (wants_wantOf _ _).mpr wanted
    have hfind : (messages s q.page).find? (wants Msg.typ (wantOf c.msgtyp)) = some n.msg := by
      rw [hmsgs, List.find?_append, List.find?_eq_none.mpr hnot, Option.none_or, List.find?_cons_of_pos hw]
    have herase : (messages s q.page).eraseP (wants Msg.typ (wantOf c.msgtyp)) = messages s' q.page := by
      rw [hmsgs, hmsgs', List.eraseP_append_right _ hnot, List.eraseP_cons_of_pos hw]
    rw [if_pos hq, hfind]
    simp only [MailMoves, Option.map_some, Mail.step, hi.mailView_of_mem hq queue, Option.bind_some, hfind, ↓reduceIte,
      Option.some.injEq]
    funext b
    by_cases hb : b = q.page
    · subst hb
      rw [update_self, hi'.mailView_of_mem hq hR, hRi, hsent, htaken, if_pos inst.symm, Box.take]
      simp only [herase]
    · rw [update_of_ne hb, hother hb]
  · rw [if_neg hq]
    funext b
    by_cases hb : b = q.page
    · subst hb
      rw [hi.mailView_of_not_mem hq, hi'.mailView_of_not_mem hq]
    · exact hother hb

/-- A box of the list that a step leaves alone: the step changes no queue of the list, no node of one and adds nothing about
it to the record. -/
theorem QueueInv.mailView_quiet (hi' : QueueInv s' ql nl) (hsent : ∀ i, sentTo i s'.log = sentTo i s.log)
    (htaken : ∀ i, takenFrom i s'.log = takenFrom i s.log)
    (hqueue : ∀ b ∈ ql, ∀ Q, queueAt s.page b = some Q → queueAt s'.page b = some Q)
    (hnode : ∀ b ∈ ql, ∀ f ∈ nl b, nodeAt s'.page f = nodeAt s.page f) : mailView s' = mailView s := by
  funext b
  refine mailView_congr hi hi' Iff.rfl fun Q hb hQ => ?_
  exact ⟨Q, hqueue b hb Q hQ, rfl, rfl, fun f hf => by rw [hnode b hb f hf], hsent _, htaken _⟩

/-- `sys_msgget` opens a box. -/
theorem QueueInv.mail_create {key msgflg : Arg} {R : MsgQueue A} (hi' : QueueInv s' (a :: ql) (update nl a [])) (hf : LogFresh s)
    (free : s.page a = .free) (page : s'.page = update s.page a (.queue R)) (inst : R.inst = s.insts) (insts : s'.insts = s.insts + 1)
    (log : s'.log = s.log ++ [.ret p s.nextId]) : MailMoves (mailView s) (mailView s') (mailAct s s' (.get p key msgflg (some a))) := by
  have hsent : ∀ i, sentTo i s'.log = sentTo i s.log := by
    intro i
    rw [log, sentTo_append]
    simp [sentTo]
  have htaken : ∀ i, takenFrom i s'.log = takenFrom i s.log := by
    intro i
    rw [log, takenFrom_append]
    simp [takenFrom]
  have hna : nodeAt s.page a = none := by simp [nodeAt, free]
  have hqa : queueAt s.page a = none := by simp [queueAt, free]
  have hal : a ∉ ql := fun ha => by
    obtain ⟨Q, hQ⟩ := hi.heap.queueAt_of_mem ha
    simp [hqa] at hQ
  have hR : queueAt s'.page a = some R := by simp [page]
  have hact : mailAct s s' (.get p key msgflg (some a)) = some (.opens a) := by
    simp [mailAct, insts]
  simp only [hact, MailMoves, Mail.step, hi.mailView_of_not_mem hal, ↓reduceIte, Option.some.injEq]
  funext b
  by_cases hb : b = a
  · subst hb
    have hempty : messages s' b = [] := by
      rw [hi'.messages_eq hR, update_self, List.filterMap_nil]
    have hfresh := hf R.inst inst.ge
    rw [update_self, hi'.mailView_of_mem List.mem_cons_self hR, hempty, hsent, htaken, hfresh.1, hfresh.2]
  · rw [update_of_ne hb]
    refine (mailView_congr hi hi' (by simp [hb]) fun Q hbl hQ => ?_).symm
    refine ⟨Q, by simpa [page, hb] using hQ, rfl, update_of_ne hb _ _, fun f hfb => ?_, hsent _, htaken _⟩
    have hfa : f ≠ a := fun he => by
      obtain ⟨n, hn, -⟩ := hi.heap.nodeAt_of_mem hQ hfb
      rw [he, hna] at hn
      cases hn
    simp [page, hfa]

/-- `sys_msgctl` closes the box. -/
theorem QueueInv.mail_unlist {msqid cmd : Arg} {l₁ l₂ : List A} (hi' : QueueInv s' (l₁ ++ l₂) nl) (pc : s'.pc p = .removing ⟨a, Q.inst⟩)
    (split : ql = l₁ ++ a :: l₂) (rel : Relisted s.page s'.page) (log : s'.log = s.log) :
    MailMoves (mailView s) (mailView s') (mailAct s s' (.ctl p msqid cmd)) := by
  have hnd := hi.heap.list.nodup
  rw [split] at hnd
  have hal : a ∉ l₁ ++ l₂ := (List.nodup_middle.mp hnd |> List.nodup_cons.mp).1
  simp only [mailAct, pc, MailMoves, Mail.step, Option.some.injEq]
  funext b
  by_cases hb : b = a
  · subst hb
    rw [update_self, hi'.mailView_of_not_mem hal]
  · rw [update_of_ne hb]
    refine (mailView_congr hi hi' (by simp [split, hb]) fun R hbl hR => ?_).symm
    obtain ⟨S, hS, hbody⟩ := rel.queue_some hR
    exact ⟨S, hS, (MsgQueue.of_body hbody).2.2.2.2, rfl, fun f _ => by rw [rel.node_eq], by rw [log], by rw [log]⟩

/-- `sys_msgctl` frees the nodes of a queue whose box is closed. -/
theorem QueueInv.mail_drain {R : MsgQueue A} {h : A → Page A} (hi' : QueueInv s' ql (update nl q.page [])) (pc : s.pc p = .removing q)
    (queue : queueAt s.page q.page = some Q) (inst : Q.inst = q.inst) (freed : ∀ x, h x = if x ∈ nl q.page then .free else s.page x)
    (page : s'.page = update h q.page (.queue R)) (log : s'.log = s.log) : mailView s' = mailView s := by
  have hq : q.page ∉ ql := (hi.pcs p).unlisted (by rw [pc]; rfl) ⟨Q, queue, inst⟩
  funext b
  refine mailView_congr hi hi' Iff.rfl fun S hb hS => ?_
  have hbq : b ≠ q.page := fun he => hq (he ▸ hb)
  have hbl : b ∉ nl q.page := fun hbl => by
    obtain ⟨n, hn, -⟩ := hi.heap.nodeAt_of_mem queue hbl
    simp [queueAt_of_nodeAt hn] at hS
  refine ⟨S, ?_, rfl, update_of_ne hbq _ _, fun f hf => ?_, by rw [log], by rw [log]⟩
  · simpa [page, queueAt, hbq, freed, hbl] using hS
  · obtain ⟨n, hn, hni⟩ := hi.heap.nodeAt_of_mem hS hf
    have hfl : f ∉ nl q.page := fun hfl => hbq (hi.heap.inst_inj hS queue (hni ▸ hi.heap.member queue hfl hn))
    have hfq : f ≠ q.page := fun he => by simp [queueAt_of_nodeAt (he ▸ hn)] at queue
    simp [page, nodeAt, hfq, freed, hfl]

variable [DecidableEq P]

/-- Every outcome is the step of the boxes that `mailAct` names. -/
theorem QueueInv.mailMoves (hf : LogFresh s) (h : Outcome s ql nl act s' ql' nl') :
    MailMoves (mailView s) (mailView s') (mailAct s s' act) := by
  have hi' := hi.outcome h
  cases h with
  | quiet page listHead insts nextId fault pc refs calls log mute =>
    obtain ⟨l, hlog, hret⟩ := log
    rw [hi.mailAct_of_mute insts mute]
    refine hi.mailView_quiet hi' (fun i => ?_) (fun i => ?_) (fun _ _ Q hQ => page ▸ hQ) fun _ _ f _ => by rw [page]
    · rw [hlog, sentTo_append, sentTo_of_ret i hret, List.append_nil]
    · rw [hlog, takenFrom_append, takenFrom_of_ret i hret, List.append_nil]
  | create k pc free => exact hi.mail_create hi' hf free rfl rfl rfl rfl
  | @fill p q c a junk pc free =>
    have hna : nodeAt s.page a = none := by simp [nodeAt, free]
    have hqa : queueAt s.page a = none := by simp [queueAt, free]
    refine hi.mailView_quiet hi' (fun _ => rfl) (fun _ => rfl) (fun b _ Q hQ => ?_) fun b hb f hfb => ?_
    · have hba : b ≠ a := fun he => by simp [he, hqa] at hQ
      simpa [MsgSt.setPc, hba] using hQ
    · obtain ⟨Q, hQ⟩ := hi.heap.queueAt_of_mem hb
      obtain ⟨n, hn, -⟩ := hi.heap.nodeAt_of_mem hQ hfb
      have hfa : f ≠ a := fun he => by simp [he, hna] at hn
      simp [MsgSt.setPc, hfa]
  | @append p q f c h hd tl Q pc queue inst rel rep =>
    exact hi.mail_append hi' pc queue inst rel (by simp [MsgSt.ret, MsgSt.setPc, MsgSt.wakeup])
  | unlink pc queue inst split node wanted first rel rep =>
    exact hi.mail_unlink hi' pc queue inst split node wanted first rel rfl
  | @deliver p f c n beyond e pc node event =>
    have hloose := fun {b Q} => (hi.pcs p).loose (f := f) (a := b) (Q := Q) (by rw [pc]; rfl)
    have hsent : ∀ i, sentTo i [e] = [] ∧ takenFrom i [e] = [] := by
      intro i
      rw [event]
      split <;> exact ⟨rfl, rfl⟩
    refine hi.mailView_quiet hi' (fun i => ?_) (fun i => ?_) (fun b _ Q hQ => ?_) fun b hb g hg => ?_
    · rw [sentTo_append, (hsent i).1, List.append_nil]
    · rw [takenFrom_append, (hsent i).2, List.append_nil]
    · have hbf : b ≠ f := fun he => by simp [queueAt_of_nodeAt (he ▸ node)] at hQ
      simpa [hbf] using hQ
    · obtain ⟨Q, hQ⟩ := hi.heap.queueAt_of_mem hb
      have hgf : g ≠ f := fun he => hloose hQ (he ▸ hg)
      simp [hgf]
  | @unlist p msqid cmd a Q l₁ l₂ h head pc split queue rel rep =>
    exact hi.mail_unlist (Q := Q) hi' (by simp [MsgSt.setPc]) split rel rfl
  | drain pc queue inst freed rep => exact hi.mail_drain hi' pc queue inst freed rfl rfl
  | @free p q Q pc queue inst =>
    have hq : q.page ∉ ql := (hi.pcs p).unlisted (by rw [pc]; rfl) ⟨Q, queue, inst⟩
    refine hi.mailView_quiet hi' (fun i => ?_) (fun i => ?_) (fun b hb R hR => ?_) fun b hb g hg => ?_
    · simp [MsgSt.ret, sentTo]
    · simp [MsgSt.ret, takenFrom]
    · have hbq : b ≠ q.page := fun he => hq (he ▸ hb)
      simpa [MsgSt.ret, MsgSt.setPc, hbq] using hR
    · obtain ⟨R, hR⟩ := hi.heap.queueAt_of_mem hb
      obtain ⟨n, hn, -⟩ := hi.heap.nodeAt_of_mem hR hg
      have hgq : g ≠ q.page := fun he => by simp [queueAt_of_nodeAt (he ▸ hn)] at queue
      simp [MsgSt.ret, MsgSt.setPc, hgq]
  | @env act a c act_eq node queue node' queue' =>
    have hview : mailView { s with page := update s.page a c } = mailView s := by
      refine hi.mailView_quiet hi' (fun _ => rfl) (fun _ => rfl) (fun b _ Q hQ => ?_) fun b hb g hg => ?_
      · have hba : b ≠ a := fun he => by simp [he, queueAt, queue] at hQ
        simpa [hba] using hQ
      · obtain ⟨Q, hQ⟩ := hi.heap.queueAt_of_mem hb
        obtain ⟨n, hn, -⟩ := hi.heap.nodeAt_of_mem hQ hg
        have hga : g ≠ a := fun he => by simp [he, nodeAt, node] at hn
        simp [hga]
    rcases act_eq with rfl | rfl <;> exact hview

omit [Fintype A] in
/-- A step adds to the record only about queues that are created. -/
theorem QueueInv.log_grows (h : Outcome s ql nl act s' ql' nl') :
    s.insts ≤ s'.insts ∧ ∃ l, s'.log = s.log ++ l ∧ ∀ i, s.insts ≤ i → sentTo i l = [] ∧ takenFrom i l = [] := by
  have hlt : ∀ {q : QueueRef A} {Q : MsgQueue A}, queueAt s.page q.page = some Q → Q.inst = q.inst →
      ∀ i, s.insts ≤ i → q.inst ≠ i := by
    intro q Q hQ hinst i hle he
    have := hi.heap.inst_lt hQ
    omega
  cases h with
  | quiet page listHead insts nextId fault pc refs calls log mute =>
    obtain ⟨l, hlog, hret⟩ := log
    exact ⟨insts.ge, l, hlog, fun i _ => ⟨sentTo_of_ret i hret, takenFrom_of_ret i hret⟩⟩
  | @create p => exact ⟨Nat.le_succ _, [.ret p s.nextId], rfl, fun _ _ => ⟨rfl, rfl⟩⟩
  | fill | unlist => exact ⟨Nat.le_refl _, [], by simp [MsgSt.setPc], fun _ _ => ⟨rfl, rfl⟩⟩
  | @append p q f c h hd tl Q pc queue inst rel rep =>
    refine ⟨Nat.le_refl _, [.sent p q.inst c.msg, .ret p 0], by simp [MsgSt.ret, MsgSt.setPc, MsgSt.wakeup], fun i hle => ?_⟩
    simp [sentTo, takenFrom, hlt queue inst i hle]
  | @unlink p q c l₁ l₂ f n h hd tl Q pc queue inst split node wanted first rel rep =>
    refine ⟨Nat.le_refl _, [.took p q.inst c n.msg], rfl, fun i hle => ?_⟩
    simp [sentTo, takenFrom, hlt queue inst i hle]
  | @deliver p f c n beyond e pc node event =>
    refine ⟨Nat.le_refl _, [e], rfl, fun i _ => ?_⟩
    rw [event]
    split <;> exact ⟨rfl, rfl⟩
  | drain => exact ⟨Nat.le_refl _, [], by simp [MsgSt.setPc, MsgSt.wakeup], fun _ _ => ⟨rfl, rfl⟩⟩
  | @free p => exact ⟨Nat.le_refl _, [.ret p 0], rfl, fun _ _ => ⟨rfl, rfl⟩⟩
  | env => exact ⟨Nat.le_refl _, [], by simp, fun _ _ => ⟨rfl, rfl⟩⟩

omit [Fintype A] in
/-- No message is logged for a queue to come. -/
theorem QueueInv.logFresh (hf : LogFresh s) (h : Outcome s ql nl act s' ql' nl') : LogFresh s' := by
  obtain ⟨hle, l, hlog, hl⟩ := hi.log_grows h
  intro i hi'
  have hold := hf i (hle.trans hi')
  have hnew := hl i (hle.trans hi')
  rw [hlog, sentTo_append, takenFrom_append, hold.1, hold.2, hnew.1, hnew.2]
  exact ⟨rfl, rfl⟩

end Moves

end OsLab
