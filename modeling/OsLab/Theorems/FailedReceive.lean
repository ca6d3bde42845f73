import OsLab.Lemmas.RecvCalls

/-!
# A receive that fails

`sys_msgrcv` unlinks the message before it asks `argptr` about the buffer, and frees it when the buffer is refused. A call that returns
-1 has therefore taken no message exactly when it has found none that it could not deliver (`failed_msgrcv_iff`).
-/

namespace OsLab

namespace RecvAux

variable {P A : Type*} [DecidableEq P] [DecidableEq A] [Fintype A] {s t : MsgSt P A} {p : P} {act : MsgAct P A}
  {acts : List (MsgAct P A)}

/-- A receiver with a node that it can deliver does not return -1. -/
theorem not_finishes_of_hand {f : A} {c : RecvCall} {n : MsgNode A} (hs : msgSys.Reachable s) (hp : s.pc p = .delivering f c)
    (hn : nodeAt s.page f = some n) (harg : argptr c.sz c.msgp (int32 (LONGSIZE + copysz n.length c.msgsz)) ≠ none)
    (hsize : copysz n.length c.msgsz ≠ -1) : ¬finishes p (-1) s acts := by
  induction acts generalizing s with
  | nil => exact id
  | cons act acts ih =>
    rintro ⟨t, hst, hend⟩
    obtain ⟨ql, nl, hi⟩ := queueInv_of_reachable hs
    by_cases hact : ∃ beyond, act = .deliver p beyond
    · obtain ⟨beyond, rfl⟩ := hact
      obtain ⟨addr, harg⟩ := Option.ne_none_iff_exists'.mp harg
      have hlog : t.log = s.log ++ [.received p addr n.msgtyp (n.copied beyond (copysz n.length c.msgsz)) (copysz n.length c.msgsz)] ∧
          t.pc p = .user := by
        have hdel := deliver_eq hp hst
        simp only [msgrcvDeliver, hn, harg] at hdel
        rw [← hdel]
        exact ⟨rfl, Function.update_self ..⟩
      rcases hend with ⟨-, -, hret⟩ | ⟨huser, -⟩
      · simp only [Returns, hlog.1, List.append_cancel_left_eq, List.cons.injEq, MsgEvent.received.injEq, reduceCtorEq, and_true,
          false_or] at hret
        obtain ⟨-, -, -, -, -, -, -, hr⟩ := hret
        exact hsize hr
      · exact huser hlog.2
    · rcases hi.step_outcome hst with ⟨ql', nl', hout⟩ | ⟨⟨e, rfl⟩, -⟩
      · have hn' := keeps_hand hi hout hp hn (not_exists.mp hact)
        have hother : act.proc ≠ some p := by
          intro hown
          rcases own_step hst hown (by rw [hp]; trivial) with ⟨-, q, d, hpc⟩ | ⟨beyond, -, -, rfl, -⟩
          · rw [hp] at hpc
            cases hpc
          · exact hact ⟨beyond, rfl⟩
        have hp' : t.pc p = .delivering f c := by
          rcases woken_of_other hst hother with he | ⟨q, d, hpc, -⟩
          · rw [he, hp]
          · rw [hp] at hpc
            cases hpc
        rcases hend with ⟨huser, -⟩ | ⟨-, hend⟩
        · rw [hp'] at huser
          cases huser
        · exact ih (.step act hs trivial hst) hp' hn' hend
      · -- a run that a fault has ended does not go on
        rcases hend with ⟨huser, -⟩ | ⟨-, hend⟩
        · rw [show (s.fail e).pc p = s.pc p from rfl, hp] at huser
          cases huser
        · cases acts with
          | nil => exact hend
          | cons a as =>
            obtain ⟨u, hu, -⟩ := hend
            cases hu

omit [DecidableEq A] [Fintype A] in
theorem setPc_self (c : MsgPc A) : (s.setPc p c).pc p = c := Function.update_self ..

/-- The place of a process in the loop of `sys_msgrcv`. -/
def MsgPc.InLoop : MsgPc A → Prop
  | .receiving _ _ => True
  | .asleep _ _ => True
  | _ => False

/-- A turn that finds no node leaves the receiver in the loop, or ends the call. -/
theorem scan_none_pc {q : QueueRef A} {c : RecvCall} (hp : s.pc p = .receiving q c) (hno : scanned s p = none)
    (huser : (msgrcvScan s p q c).pc p ≠ .user) : MsgPc.InLoop ((msgrcvScan s p q c).pc p) := by
  have hfail : ∀ e, MsgPc.InLoop ((s.fail e).pc p) := by
    intro e
    show MsgPc.InLoop (s.pc p)
    rw [hp]
    trivial
  have hret : (s.ret p (-1)).pc p = .user := Function.update_self ..
  simp only [scanned, hp] at hno
  unfold msgrcvScan at huser ⊢
  cases hd : s.deref q with
  | none => exact hfail _
  | some Q =>
    simp only [hd] at hno huser ⊢
    cases hseek : seekNode s.page c.msgtyp Q.head with
    | found prev a =>
      simp only [hseek, Option.map_eq_none_iff] at hno ⊢
      rw [hno]
      exact hfail _
    | absent =>
      simp only [hseek] at huser ⊢
      split_ifs at huser ⊢
      · exact absurd hret huser
      · exact absurd hret huser
      · rw [setPc_self]
        trivial
    | dangling | endless => exact hfail _

/-- From a place in the loop on: the steps of the receiver leave the messages as they are exactly when it finds nothing that it could not
deliver. -/
theorem loop_iff (hs : msgSys.Reachable s) (hp : MsgPc.InLoop (s.pc p)) (h : finishes p (-1) s acts) :
    msgSys.along (LeavesMessages p) s acts ↔ msgSys.along (Deliverable p) s acts := by
  induction acts generalizing s with
  | nil => exact Iff.rfl
  | cons act acts ih =>
    obtain ⟨t, hst, hend⟩ := h
    have hs' : msgSys.Reachable t := .step act hs trivial hst
    -- what follows a step that meets both conditions
    have hrest : (t.pc p ≠ .user → MsgPc.InLoop (t.pc p)) →
        (msgSys.along (LeavesMessages p) t acts ↔ msgSys.along (Deliverable p) t acts) := by
      intro hloop
      rcases hend with ⟨-, rfl, -⟩ | ⟨hne, hend⟩
      · exact Iff.rfl
      · exact ih hs' (hloop hne) hend
    rw [Sys.along_cons (S := msgSys) hst, Sys.along_cons (S := msgSys) hst]
    by_cases hown : act.proc = some p
    · have hin : MsgPc.InRecv (s.pc p) := by
        cases hpc : s.pc p <;> rw [hpc] at hp <;> trivial
      rcases own_step hst hown hin with ⟨rfl, q, c, hpc⟩ | ⟨-, f, c, -, hpc⟩
      · cases hscan : scanned s p with
        | none =>
          have ht : t = msgrcvScan s p q c := (rcvScan_eq hpc hst).symm
          have hleaves : LeavesMessages p s (.rcvScan p) := by
            intro _ u hu a
            obtain rfl : t = u := Option.some.inj (hst.symm.trans hu)
            exact messages_congr (ht ▸ scan_none hpc hscan) a
          have hdeliv : Deliverable p s (.rcvScan p) := by
            intro _ d n hfound
            rw [hscan] at hfound
            cases hfound
          exact and_congr (iff_of_true hleaves hdeliv) (hrest fun hne => by rw [ht] at hne ⊢; exact scan_none_pc hpc hscan hne)
        | some found =>
          obtain ⟨d, n⟩ := found
          obtain ⟨rfl, ⟨f, m, hpc', hm, hlen⟩, hmsgs⟩ := scan_found hs hpc hscan hst
          refine iff_of_false (fun h => hmsgs (h.1 rfl t hst q.page)) fun h => ?_
          obtain ⟨harg, hsize⟩ := h.1 rfl d n hscan
          rw [← hlen] at harg hsize
          rcases hend with ⟨huser, -⟩ | ⟨-, hend⟩
          · rw [hpc'] at huser
            cases huser
          · exact not_finishes_of_hand hs' hpc' hm harg hsize hend
      · rw [hpc] at hp
        exact hp.elim
    · have hleaves : LeavesMessages p s act := fun h => absurd h hown
      have hdeliv : Deliverable p s act := by
        rintro rfl
        exact absurd rfl hown
      refine and_congr (iff_of_true hleaves hdeliv) (hrest fun _ => ?_)
      rcases woken_of_other hst hown with he | ⟨q, d, -, hpc⟩
      · rw [he]
        exact hp
      · rw [hpc]
        trivial

/-- The lookup of `sys_msgrcv` changes no page, and leads to the loop if it does not end the call. -/
theorem rcv_page (hp : s.pc p = .user) (msqid msgp msgsz msgtyp msgflg : Arg) (sz : Nat) :
    (sysMsgrcv s p msqid msgp msgsz msgtyp msgflg sz).page = s.page ∧
      ((sysMsgrcv s p msqid msgp msgsz msgtyp msgflg sz).pc p ≠ .user →
        MsgPc.InLoop ((sysMsgrcv s p msqid msgp msgsz msgtyp msgflg sz).pc p)) := by
  have hret : (s.ret p (-1)).pc p = .user := Function.update_self ..
  unfold sysMsgrcv
  split
  · unfold MsgSt.lookup
    split
    · refine ⟨rfl, fun _ => ?_⟩
      rw [setPc_self]
      trivial
    · exact ⟨rfl, fun h => absurd hret h⟩
    · exact ⟨rfl, fun h => absurd hp h⟩
    · exact ⟨rfl, fun h => absurd hp h⟩
  · exact ⟨rfl, fun h => absurd hret h⟩

end RecvAux

open RecvAux

/-- For every state of every run, every argument and every interleaving with other processes: a `sys_msgrcv` that returns -1 has left the
messages of every queue as they were, but for what the others have done meanwhile, exactly when it has never found a message that it
could not deliver. -/
theorem failed_msgrcv_iff {P A : Type*} [DecidableEq P] [DecidableEq A] [Fintype A] {s : MsgSt P A} {p : P}
    {msqid msgp msgsz msgtyp msgflg : Arg} {sz : Nat} {acts : List (MsgAct P A)} (hs : msgSys.Reachable s)
    (h : finishes p (-1) s (.rcv p msqid msgp msgsz msgtyp msgflg sz :: acts)) :
    msgSys.along (LeavesMessages p) s (.rcv p msqid msgp msgsz msgtyp msgflg sz :: acts) ↔
      msgSys.along (Deliverable p) s (.rcv p msqid msgp msgsz msgtyp msgflg sz :: acts) := by
  obtain ⟨t, hst, hend⟩ := h
  have ht : t = sysMsgrcv s p msqid msgp msgsz msgtyp msgflg sz ∧ s.pc p = .user := by
    cases (msgMoves_of_msgStep hst).2 with
    | rcv hpc => exact ⟨rfl, hpc⟩
  obtain ⟨hpage, hloop⟩ := rcv_page ht.2 msqid msgp msgsz msgtyp msgflg sz
  rw [← ht.1] at hpage hloop
  have hleaves : LeavesMessages p s (.rcv p msqid msgp msgsz msgtyp msgflg sz) := by
    intro _ u hu a
    obtain rfl : t = u := Option.some.inj (hst.symm.trans hu)
    exact messages_congr hpage a
  rw [Sys.along_cons (S := msgSys) hst, Sys.along_cons (S := msgSys) hst]
  refine and_congr (iff_of_true hleaves (fun he => by cases he)) ?_
  rcases hend with ⟨-, rfl, -⟩ | ⟨hne, hend⟩
  · exact Iff.rfl
  · exact loop_iff (.step _ hs trivial hst) (hloop hne) hend

/-- Process 0 creates a queue and sends a message of type 7, with a payload of two bytes. -/
def oneMessage : List (MsgAct (Fin 1) (Fin 2)) :=
  [.get 0 (some 5) (some 0o1000) (some 0), .snd 0 (some 1) (some 0) (some 2) (some 0) 8192 7 (fun _ => 42),
    .sndAlloc 0 (some 1) (fun _ => 0), .sndAppend 0]

/-- The state with that message. -/
def messageState : MsgSt (Fin 1) (Fin 2) := (msgSys.run (MsgSt.start _ _) oneMessage).get (by decide +kernel)

theorem messageState_reachable : msgSys.Reachable messageState :=
  Sys.reachable_of_run (MsgSt.start_boot _ _) (Option.some_get _).symm

/-- A receiver of this type, into a buffer at this address, that does not wait. -/
def receiveNow (msgp msgtyp : Int) : MsgAct (Fin 1) (Fin 2) :=
  .rcv 0 (some 1) (some msgp) (some 4) (some msgtyp) (some 0o4000) 8192

/-- A receiver that wants another type and does not wait returns -1, and the message is still there. -/
theorem failed_msgrcv_unwanted : messages messageState 0 = [⟨7, [42, 42]⟩] ∧
    finishes 0 (-1) messageState [receiveNow 0 8, .rcvScan 0] ∧
    msgSys.along (LeavesMessages 0) messageState [receiveNow 0 8, .rcvScan 0] := by
  have hfails : finishes 0 (-1) messageState [receiveNow 0 8, .rcvScan 0] :=
    ⟨_, rfl, .inr ⟨(fun he => by cases he), _, rfl, .inl ⟨rfl, rfl, .inl rfl⟩⟩⟩
  refine ⟨by decide +kernel, hfails, (failed_msgrcv_iff messageState_reachable hfails).mpr ?_⟩
  refine (Sys.along_cons (S := msgSys) rfl).mpr ⟨(fun he => by cases he), (Sys.along_cons (S := msgSys) rfl).mpr ⟨?_, trivial⟩⟩
  rintro - c n ⟨⟩

/-- A receiver that wants the message, but has a buffer of two bytes less than type and payload take, returns -1, and the message is
lost. -/
theorem failed_msgrcv_loses : msgSys.Reachable messageState ∧ messages messageState 0 = [⟨7, [42, 42]⟩] ∧
    finishes 0 (-1) messageState [receiveNow 8188 7, .rcvScan 0, .deliver 0 fun _ => 0] ∧
    (msgSys.run messageState [receiveNow 8188 7, .rcvScan 0, .deliver 0 fun _ => 0]).map (messages · 0) = some [] :=
  ⟨messageState_reachable, by decide +kernel, ⟨_, rfl, .inr ⟨(fun he => by cases he), _, rfl,
    .inr ⟨(fun he => by cases he), _, rfl, .inl ⟨rfl, rfl, .inl rfl⟩⟩⟩⟩,
    by decide +kernel⟩

end OsLab
